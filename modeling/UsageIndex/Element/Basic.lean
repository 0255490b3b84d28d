import UsageIndex.Json.Decode

/-!
Elements: the entities of a program that names resolve to.
-/

set_option autoImplicit false

namespace UsageIndex

structure ElementId where
  index : UInt32
  deriving DecidableEq, Repr

def ElementId.label (id : ElementId) : String := "elem_" ++ toString id.index.toNat

def ElementId.encode (id : ElementId) : Json := .ofWord id.index

def ElementId.decode? (j : Json) : Option ElementId := j.word?.map ElementId.mk

inductive ParameterKind where
  | required
  | positional
  | named
  deriving DecidableEq, Repr

inductive ElementKind where
  | library
  | compilationUnit
  | classType
  | enumType
  | functionTypeAlias
  | constructor
  | method
  | getter
  | setter
  | field
  | topLevelVariable
  | function
  | typeParameter
  | parameter (kind : ParameterKind)
  | localVariable
  | label
  | importPrefix
  | importing
  | exporting
  deriving DecidableEq, Repr

namespace ParameterKind

def default : ParameterKind := .required

def name : ParameterKind → String
  | .required => "required"
  | .positional => "positional"
  | .named => "named"

def all : List ParameterKind := [.required, .positional, .named]

def encode (k : ParameterKind) : Json := .string k.name

def decode? (j : Json) : Option ParameterKind := do
  let tag ← j.bareVariant?
  all.find? (·.name == tag)

end ParameterKind

namespace ElementKind

def name : ElementKind → String
  | .library => "library"
  | .compilationUnit => "compilation_unit"
  | .classType => "class"
  | .enumType => "enum"
  | .functionTypeAlias => "function_type_alias"
  | .constructor => "constructor"
  | .method => "method"
  | .getter => "getter"
  | .setter => "setter"
  | .field => "field"
  | .topLevelVariable => "top_level_variable"
  | .function => "function"
  | .typeParameter => "type_parameter"
  | .parameter _ => "parameter"
  | .localVariable => "local_variable"
  | .label => "label"
  | .importPrefix => "prefix"
  | .importing => "import"
  | .exporting => "export"

def bare : List ElementKind :=
  [.library, .compilationUnit, .classType, .enumType, .functionTypeAlias, .constructor, .method,
    .getter, .setter, .field, .topLevelVariable, .function, .typeParameter, .localVariable, .label,
    .importPrefix, .importing, .exporting]

/-- Code that runs: what is declared directly inside it is local. -/
def isExecutable : ElementKind → Bool
  | .constructor | .method | .getter | .setter | .function => true
  | _ => false

def isClassLike : ElementKind → Bool
  | .classType | .enumType => true
  | _ => false

def isProperty : ElementKind → Bool
  | .field | .topLevelVariable | .getter | .setter => true
  | _ => false

def encode : ElementKind → Json
  | .parameter k => .record [("parameter", k.encode)]
  | k => .string k.name

def decode? (j : Json) : Option ElementKind := do
  let (tag, content) ← j.variant?
  if tag = "parameter" then
    let kind ← content
    (ParameterKind.decode? kind).map .parameter
  else
    let tag ← j.bareVariant?
    bare.find? (·.name == tag)

end ElementKind

structure Element where
  kind : ElementKind
  name : String
  nameOffset : UInt32
  enclosing : Option ElementId := none
  /-- Where a library or compilation unit comes from. -/
  sourceUri : Option String := none
  /-- The unit in which a library is declared. -/
  definingUnit : Option ElementId := none
  supertype : Option ElementId := none
  /-- Whether the element has no declaration of its own. -/
  isSynthetic : Bool := false
  redirectedConstructor : Option ElementId := none
  /-- The field that a parameter sets. -/
  field : Option ElementId := none
  /-- The library that is imported or exported. -/
  library : Option ElementId := none
  deriving DecidableEq, Repr

namespace Element

def isPositionalParameter (e : Element) : Bool :=
  e.kind == .parameter .required || e.kind == .parameter .positional

def fieldNames : List String :=
  ["kind", "name", "name_offset", "enclosing", "source_uri", "defining_unit", "supertype",
    "is_synthetic", "redirected_constructor", "field", "library"]

def link {α : Type} (name : String) (encode : α → Json) : Option α → List (String × Json)
  | none => []
  | some a => [(name, encode a)]

/-- Links that are not there are left out. -/
def encode (e : Element) : Json :=
  .record <|
    [("kind", e.kind.encode), ("name", .string e.name), ("name_offset", .ofWord e.nameOffset)]
    ++ link "enclosing" ElementId.encode e.enclosing
    ++ link "source_uri" Json.string e.sourceUri
    ++ link "defining_unit" ElementId.encode e.definingUnit
    ++ link "supertype" ElementId.encode e.supertype
    ++ [("is_synthetic", .bool e.isSynthetic)]
    ++ link "redirected_constructor" ElementId.encode e.redirectedConstructor
    ++ link "field" ElementId.encode e.field
    ++ link "library" ElementId.encode e.library

def decode? (j : Json) : Option Element := do
  let [kind, name, nameOffset, enclosing, sourceUri, definingUnit, supertype, isSynthetic,
    redirectedConstructor, field, library] ← j.fields? fieldNames | none
  return {
    kind := ← kind.required ElementKind.decode?
    name := ← name.required Json.text?
    nameOffset := ← nameOffset.required Json.word?
    enclosing := ← enclosing.optional ElementId.decode?
    sourceUri := ← sourceUri.optional Json.text?
    definingUnit := ← definingUnit.optional ElementId.decode?
    supertype := ← supertype.optional ElementId.decode?
    isSynthetic := ← isSynthetic.orDefault false Json.bool?
    redirectedConstructor := ← redirectedConstructor.optional ElementId.decode?
    field := ← field.optional ElementId.decode?
    library := ← library.optional ElementId.decode? }

end Element

end UsageIndex
