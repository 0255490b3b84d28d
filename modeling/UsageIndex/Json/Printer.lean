import UsageIndex.Json.Symbol

/-!
Writing JSON texts. A layout says which blanks stand between the symbols; the compact layout
has none, and the indented one puts each item and member on its own line.
-/

set_option autoImplicit false

namespace UsageIndex.Json

structure Layout where
  /-- What stands before an item, member or closing bracket at this depth. -/
  line : Nat → List Char
  /-- What stands between the colon of a member and its value. -/
  gap : List Char

namespace Layout

def compact : Layout := ⟨fun _ => [], []⟩

def indented : Layout := ⟨fun depth => '\n' :: List.replicate (2 * depth) ' ', [' ']⟩

end Layout

mutual

/-- A value whose brackets stand at the given depth. An empty array or object has no blanks. -/
def render (l : Layout) (depth : Nat) : Json → List Char
  | .scalar s => s.spelling
  | .array [] => ['[', ']']
  | .array (x :: xs) =>
    '[' :: l.line (depth + 1) ++ render l (depth + 1) x ++ renderItems l (depth + 1) xs
      ++ l.line depth ++ [']']
  | .object [] => ['\x7b', '\x7d']
  | .object ((name, x) :: ms) =>
    '\x7b' :: l.line (depth + 1) ++ name.spelling ++ ':' :: l.gap ++ render l (depth + 1) x
      ++ renderMembers l (depth + 1) ms ++ l.line depth ++ ['\x7d']

def renderItems (l : Layout) (depth : Nat) : List Json → List Char
  | [] => []
  | x :: xs => ',' :: l.line depth ++ render l depth x ++ renderItems l depth xs

def renderMembers (l : Layout) (depth : Nat) : List (Text × Json) → List Char
  | [] => []
  | (name, x) :: ms =>
    ',' :: l.line depth ++ name.spelling ++ ':' :: l.gap ++ render l depth x
      ++ renderMembers l depth ms

end

def compact (j : Json) : String := String.ofList (j.render .compact 0)

def indented (j : Json) : String := String.ofList (j.render .indented 0)

end UsageIndex.Json
