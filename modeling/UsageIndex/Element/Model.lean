import UsageIndex.Fault

/-!
The model of a program: all its elements, each known by its position, and what their links
say about where an element belongs.
-/

set_option autoImplicit false

namespace UsageIndex

structure Model where
  elements : List Element := []
  deriving DecidableEq, Repr

namespace Model

def empty : Model := {}

def size (m : Model) : Nat := m.elements.length

def isEmpty (m : Model) : Bool := m.elements.isEmpty

def get? (m : Model) (id : ElementId) : Option Element := m.elements[id.index.toNat]?

def add (m : Model) (e : Element) : ElementId × Model :=
  (⟨UInt32.ofNat m.size⟩, ⟨m.elements ++ [e]⟩)

/-- Overwrites an element; other ids than those of the model change nothing. -/
def replace (m : Model) (id : ElementId) (e : Element) : Model :=
  ⟨m.elements.set id.index.toNat e⟩

def unitElement (library : ElementId) (uri : String) : Element :=
  { kind := .compilationUnit, name := "", nameOffset := 0, enclosing := some library,
    sourceUri := some uri }

def addLibrary (m : Model) (uri : String) : (ElementId × ElementId) × Model :=
  let library : Element := { kind := .library, name := "", nameOffset := 0, sourceUri := some uri }
  let (libraryId, m) := m.add library
  let (unitId, m) := m.add (unitElement libraryId uri)
  ((libraryId, unitId), m.replace libraryId { library with definingUnit := some unitId })

def addPart (m : Model) (library : ElementId) (uri : String) : ElementId × Model :=
  m.add (unitElement library uri)

def addChild (m : Model) (enclosing : ElementId) (kind : ElementKind) (name : String)
    (nameOffset : UInt32) : ElementId × Model :=
  m.add { kind, name, nameOffset, enclosing := some enclosing }

def chainFrom (m : Model) : (limit : Nat) → Option ElementId → List (ElementId × Element)
  | 0, _ => []
  | _ + 1, none => []
  | limit + 1, some id =>
    match m.get? id with
    | none => []
    | some e => (id, e) :: m.chainFrom limit e.enclosing

/-- An element and those around it, innermost first. The chain ends where a link is missing
or leads out of the model, and in any case after as many steps as the model has elements. -/
def enclosingChain (m : Model) (id : ElementId) : List (ElementId × Element) :=
  m.chainFrom m.size (some id)

theorem length_chainFrom_le (m : Model) (limit : Nat) (start : Option ElementId) :
    (m.chainFrom limit start).length ≤ limit := by
  induction limit generalizing start with
  | zero => simp [chainFrom]
  | succ limit ih =>
    cases start with
    | none => simp [chainFrom]
    | some id =>
      unfold chainFrom
      cases m.get? id with
      | none => simp
      | some e => simpa using ih e.enclosing

/-- The unit that the first unit or library of a chain stands for. -/
def unitOfChain : List (ElementId × Element) → Option ElementId
  | [] => none
  | (id, e) :: rest =>
    match e.kind with
    | .compilationUnit => some id
    | .library => e.definingUnit
    | _ => unitOfChain rest

/-- The compilation unit that an element belongs to; a library belongs to the unit that
defines it. -/
def enclosingUnit (m : Model) (id : ElementId) : Except Fault ElementId :=
  match m.get? id with
  | none => .error (.unknownElement id)
  | some e =>
    match unitOfChain (m.enclosingChain id) with
    | some unit => .ok unit
    | none => .error (.unlinkedElement id e.name)

def sourceUri (m : Model) (id : ElementId) : Except Fault String :=
  match m.get? id with
  | none => .error (.unknownElement id)
  | some e =>
    match e.sourceUri with
    | none => .error (.missingSourceUri id)
    | some uri => .ok uri

/-- The source URIs of a unit's library and of the unit itself. A unit that nothing encloses
is its own library. -/
def unitUris (m : Model) (unit : ElementId) : Except Fault (String × String) := do
  let unitUri ← m.sourceUri unit
  match (m.get? unit).bind Element.enclosing with
  | none => return (unitUri, unitUri)
  | some library => return (← m.sourceUri library, unitUri)

def isLocalFunction (m : Model) (id : ElementId) : Bool :=
  match m.get? id with
  | none => false
  | some e =>
    e.kind == .function &&
      match e.enclosing.bind m.get? with
      | none => false
      | some outer => outer.kind.isExecutable

/-- The constructor that a mention of `id` means: a synthetic constructor stands for the one
it redirects to. Only one step is followed. -/
def redirectTarget (m : Model) (id : ElementId) : ElementId :=
  match m.get? id with
  | none => id
  | some e =>
    if e.kind = .constructor ∧ e.isSynthetic then e.redirectedConstructor.getD id else id

/-- Local variables, parameters that are not named and local functions are never indexed. -/
def isFiltered (m : Model) (id : ElementId) : Bool :=
  match m.get? id with
  | none => false
  | some e =>
    match e.kind with
    | .localVariable => true
    | .parameter _ => e.isPositionalParameter
    | .function => m.isLocalFunction id
    | _ => false

def fieldNames : List String := ["elements"]

def encode (m : Model) : Json := .record [("elements", .ofList Element.encode m.elements)]

def decode? (j : Json) : Option Model := do
  let [elements] ← j.fields? fieldNames | none
  return ⟨← elements.required (Json.list? Element.decode?)⟩

end Model

end UsageIndex
