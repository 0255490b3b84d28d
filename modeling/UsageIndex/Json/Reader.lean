import UsageIndex.Json.Symbol

/-!
Reading a JSON text. A value is put together from symbols with the unfinished arrays and
objects on a stack, so values of any depth can be read.
-/

set_option autoImplicit false

namespace UsageIndex.Json

/-- An array or object still open, its parts so far last one first. -/
inductive Frame where
  | items (read : List Json)
  | members (read : List (Text × Json))
  /-- The value of this member comes next. -/
  | member (read : List (Text × Json)) (name : Text)
  deriving Repr

inductive Expected where
  | value
  /-- A value, or the end of an array just opened. -/
  | itemOrClose
  /-- A name, or the end of an object just opened. -/
  | nameOrClose
  | name
  | colon
  /-- A comma or the end of the innermost array or object. -/
  | commaOrClose
  /-- Nothing: the value is complete. -/
  | nothing (value : Json)
  deriving Repr

structure Reader where
  expected : Expected
  stack : List Frame
  deriving Repr

namespace Reader

def start : Reader := ⟨.value, []⟩

def deliver? (v : Json) : List Frame → Option Reader
  | [] => some ⟨.nothing v, []⟩
  | .items xs :: fs => some ⟨.commaOrClose, .items (v :: xs) :: fs⟩
  | .member ms name :: fs => some ⟨.commaOrClose, .members ((name, v) :: ms) :: fs⟩
  | .members _ :: _ => none

def close? : List Frame → Symbol → Option Reader
  | .items xs :: fs, .closeArray => deliver? (.array xs.reverse) fs
  | .members ms :: fs, .closeObject => deliver? (.object ms.reverse) fs
  | _, _ => none

def open? (stack : List Frame) : Symbol → Option Reader
  | .scalar s => deliver? (.scalar s) stack
  | .openArray => some ⟨.itemOrClose, .items [] :: stack⟩
  | .openObject => some ⟨.nameOrClose, .members [] :: stack⟩
  | _ => none

def name? : List Frame → Symbol → Option Reader
  | .members ms :: fs, .scalar (.string t) => some ⟨.colon, .member ms t :: fs⟩
  | _, _ => none

def step? : Reader → Symbol → Option Reader
  | ⟨.value, fs⟩, t => open? fs t
  | ⟨.itemOrClose, fs⟩, .closeArray => close? fs .closeArray
  | ⟨.itemOrClose, fs⟩, t => open? fs t
  | ⟨.nameOrClose, fs⟩, .closeObject => close? fs .closeObject
  | ⟨.nameOrClose, fs⟩, t => name? fs t
  | ⟨.name, fs⟩, t => name? fs t
  | ⟨.colon, fs⟩, .colon => some ⟨.value, fs⟩
  | ⟨.colon, _⟩, _ => none
  | ⟨.commaOrClose, .items xs :: fs⟩, .comma => some ⟨.value, .items xs :: fs⟩
  | ⟨.commaOrClose, .members ms :: fs⟩, .comma => some ⟨.name, .members ms :: fs⟩
  | ⟨.commaOrClose, fs⟩, t => close? fs t
  | ⟨.nothing _, _⟩, _ => none

def run? : Reader → List Symbol → Option Reader
  | r, [] => some r
  | r, t :: ts =>
    match r.step? t with
    | none => none
    | some r' => r'.run? ts

def finish? : Reader → Option Json
  | ⟨.nothing v, _⟩ => some v
  | _ => none

theorem run?_append (r : Reader) (ts us : List Symbol) :
    r.run? (ts ++ us) = (r.run? ts).bind (·.run? us) := by
  induction ts generalizing r with
  | nil => rfl
  | cons t ts ih =>
    simp only [List.cons_append, run?]
    cases r.step? t with
    | none => rfl
    | some r' => exact ih r'

end Reader

def ofSymbols? (symbols : List Symbol) : Option Json :=
  (Reader.start.run? symbols).bind Reader.finish?

def parse? (text : String) : Option Json :=
  (scan? text.toList).bind ofSymbols?

end UsageIndex.Json
