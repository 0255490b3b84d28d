import UsageIndex.Json.Reader

/-!
How values of the library's own types are written as JSON.

A record is an object or the array of its fields in order. In an object the order of members
is free and unknown members are ignored; in an array, fields may be missing at the end only.
A variant is its bare tag, or an object whose one member is named by the tag.
-/

set_option autoImplicit false

namespace UsageIndex.Json

inductive Given where
  | value (j : Json)
  /-- The object has no such member. -/
  | unnamed
  /-- The array ends before the field. -/
  | cutOff
  deriving Repr

namespace Given

def required {α : Type} (decode : Json → Option α) : Given → Option α
  | .value j => decode j
  | .unnamed => none
  | .cutOff => none

/-- A field whose absence is written as null or by leaving the member out. -/
def optional {α : Type} (decode : Json → Option α) : Given → Option (Option α)
  | .value .null => some none
  | .value j => (decode j).map some
  | .unnamed => some none
  | .cutOff => none

/-- A field that may be left out and then has the default value. -/
def orDefault {α : Type} (default : α) (decode : Json → Option α) : Given → Option α
  | .value j => decode j
  | .unnamed => some default
  | .cutOff => some default

end Given

def memberNames? : List (Text × Json) → Option (List String)
  | [] => some []
  | (none, _) :: _ => none
  | (some name, _) :: ms => (memberNames? ms).map (name :: ·)

def member? (name : String) : List (Text × Json) → Option Json
  | [] => none
  | (n, v) :: ms => if n = some name then some v else member? name ms

def givenMember (name : String) (ms : List (Text × Json)) : Given :=
  match member? name ms with
  | some v => .value v
  | none => .unnamed

def givenItems : List String → List Json → List Given
  | [], _ => []
  | _ :: names, [] => .cutOff :: givenItems names []
  | _ :: names, x :: xs => .value x :: givenItems names xs

/-- What a value says about the fields of a record, in the order of the names. A known name
must not occur twice, and an array must not be longer than the list of fields. -/
def fields? (names : List String) : Json → Option (List Given)
  | .object ms => do
    let written ← memberNames? ms
    if names.all (fun name => written.count name ≤ 1) then
      some (names.map fun name => givenMember name ms)
    else none
  | .array xs => if xs.length ≤ names.length then some (givenItems names xs) else none
  | .scalar _ => none

def variant? : Json → Option (String × Option Json)
  | .scalar (.string (some tag)) => some (tag, none)
  | .object [(some tag, content)] => some (tag, some content)
  | _ => none

/-- The tag of a variant without content: bare, or with null for its content. -/
def bareVariant? (j : Json) : Option String :=
  match j.variant? with
  | some (tag, none) => some tag
  | some (tag, some .null) => some tag
  | _ => none

def text? : Json → Option String
  | .scalar (.string t) => t
  | _ => none

def bool? : Json → Option Bool
  | .scalar (.bool b) => some b
  | _ => none

/-- A number written with digits only and below 2³². -/
def word? : Json → Option UInt32
  | .scalar (.natural n) => if n < 4294967296 then some (UInt32.ofNat n) else none
  | _ => none

def list? {α : Type} (decode : Json → Option α) : Json → Option (List α)
  | .array xs => xs.mapM decode
  | _ => none

def ofWord (n : UInt32) : Json := .natural n.toNat

def ofList {α : Type} (encode : α → Json) (xs : List α) : Json := .array (xs.map encode)

def ofOption {α : Type} (encode : α → Json) : Option α → Json
  | none => .null
  | some a => encode a

theorem word?_ofWord (n : UInt32) : (ofWord n).word? = some n := by
  have h : n.toNat < 4294967296 := n.toNat_lt
  simp [ofWord, word?, h]

end UsageIndex.Json
