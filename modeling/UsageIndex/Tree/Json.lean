import UsageIndex.Tree.Basic

/-!
Source trees as JSON. Records and choices are written as the forms say: every field of a
record, and the tag of the chosen alternative with its content. Reading is limited in how deep
arrays and objects may lie inside one another; members that are ignored do not count.
-/

set_option autoImplicit false

namespace UsageIndex

/-- How deep arrays and objects may nest in a value that is read. -/
def nestingLimit : Nat := 127

namespace Tree

def encode {f : Form} : Tree f → Json
  | .token t => t.encode
  | .element id => id.encode
  | .node _ body => body.encode
  | .absent => .null
  | .present t => t.encode
  | .nil => .array []
  | .cons x xs => .array (x.encode :: xs.encode.items)
  | .nothing => .null
  | .done => .object []
  | @Tree.slot name _ _ _ x xs => .object ((some name, x.encode) :: xs.encode.members)
  | @Tree.here tag _ _ .nothing => .string tag
  | @Tree.here tag _ _ t => .record [(tag, t.encode)]
  | .there t => t.encode

abbrev Decoder := (f : Form) → Json → Option (Tree f)

/-- The tree that stands for a field left out, if the form has one. -/
def blank? : (f : Form) → Option (Tree f)
  | .optional _ => some .absent
  | .many _ => some .nil
  | _ => none

/-- A field of a record. An optional value may be missing from an object without being
omissible. -/
def decodeField? (inner : Decoder) (omissible : Bool) : (f : Form) → Json.Given → Option (Tree f)
  | f, .value j => inner f j
  | .optional _, .unnamed => some .absent
  | f, .unnamed => if omissible then blank? f else none
  | f, .cutOff => if omissible then blank? f else none

def decodeFields? (inner : Decoder) : (f : Form) → List Json.Given → Option (Tree f)
  | .done, [] => some .done
  | .slot _ omissible f rest, g :: gs => do
    let x ← decodeField? inner omissible f g
    let xs ← decodeFields? inner rest gs
    return .slot x xs
  | _, _ => none

def decodeBare? (tag : String) : (f : Form) → Option (Tree f)
  | .either t f rest =>
    if t = tag then
      match f with
      | .nothing => some (.here .nothing)
      | _ => none
    else (decodeBare? tag rest).map .there
  | _ => none

def decodeTagged? (inner : Decoder) (tag : String) (content : Json) :
    (f : Form) → Option (Tree f)
  | .either t f rest =>
    if t = tag then
      match f, content with
      | .nothing, .null => some (.here .nothing)
      | .nothing, _ => none
      | f, content => (inner f content).map .here
    else (decodeTagged? inner tag content rest).map .there
  | _ => none

/-- A record. There is no inner reader where nothing may nest any more. -/
def decodeRecord? (inner : Option Decoder) (f : Form) (j : Json) : Option (Tree f) := do
  decodeFields? (← inner) f (← j.fields? f.fieldNames)

def decodeChoice? (inner : Option Decoder) (f : Form) (j : Json) : Option (Tree f) :=
  match j.variant? with
  | none => none
  | some (tag, none) => decodeBare? tag f
  | some (tag, some content) => do decodeTagged? (← inner) tag content f

def decodeBody? (inner : Option Decoder) (f : Form) (j : Json) : Option (Tree f) :=
  if f.isChoice then decodeChoice? inner f j else decodeRecord? inner f j

/-- A tree whose outermost array or object is read here and the rest by the inner reader. -/
def decodeWith? (inner : Option Decoder) : (f : Form) → Json → Option (Tree f)
  | .token, j => do
    let _ ← inner
    (Token.decode? j).map .token
  | .element, j => (ElementId.decode? j).map .element
  | .node k, j => (decodeBody? inner k.form j).map (.node k)
  | .optional _, .null => some .absent
  | .optional f, j => (decodeWith? inner f j).map .present
  | .many f, .array xs => do
    let inner ← inner
    (xs.mapM (inner f)).map ofList
  | .many _, _ => none
  | f, j => decodeBody? inner f j

def decodeWithin? : (limit : Nat) → Decoder
  | 0 => decodeWith? none
  | limit + 1 => decodeWith? (some (decodeWithin? limit))

def decode? (f : Form) (j : Json) : Option (Tree f) := decodeWithin? nestingLimit f j

end Tree

end UsageIndex
