/-!
JSON values as they are written: members keep their order and may repeat a name, and
numbers that are no plain sequence of digits keep their spelling.
-/

set_option autoImplicit false

namespace UsageIndex

/-- The text of a string literal. A literal in which an escaped surrogate has no partner is
well formed but denotes no text, which is `none`. -/
abbrev Json.Text := Option String

inductive Json.Scalar where
  | null
  | bool (b : Bool)
  /-- A number written with digits only. -/
  | natural (n : Nat)
  /-- Any other number, as it is spelled. -/
  | real (spelling : List Char)
  | string (text : Json.Text)
  deriving DecidableEq, Repr

inductive Json where
  | scalar (s : Json.Scalar)
  | array (items : List Json)
  | object (members : List (Json.Text × Json))
  deriving Repr

namespace Json

@[match_pattern] abbrev null : Json := .scalar .null
@[match_pattern] abbrev bool (b : Bool) : Json := .scalar (.bool b)
@[match_pattern] abbrev natural (n : Nat) : Json := .scalar (.natural n)
@[match_pattern] abbrev string (s : String) : Json := .scalar (.string (some s))

def record (members : List (String × Json)) : Json :=
  .object (members.map fun m => (some m.1, m.2))

def items : Json → List Json
  | .array xs => xs
  | _ => []

def members : Json → List (Text × Json)
  | .object ms => ms
  | _ => []

@[simp] theorem items_array (xs : List Json) : (Json.array xs).items = xs := rfl

@[simp] theorem members_object (ms : List (Text × Json)) : (Json.object ms).members = ms := rfl

mutual

def depth : Json → Nat
  | .scalar _ => 0
  | .array xs => depthItems xs + 1
  | .object ms => depthMembers ms + 1

def depthItems : List Json → Nat
  | [] => 0
  | x :: xs => max x.depth (depthItems xs)

def depthMembers : List (Text × Json) → Nat
  | [] => 0
  | (_, x) :: ms => max x.depth (depthMembers ms)

end

end Json

end UsageIndex
