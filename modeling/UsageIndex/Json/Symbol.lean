import UsageIndex.Json.Value

/-!
The lexical level of JSON: brackets, commas, colons and scalars, how each is spelled, and a
scanner that reads a character list back into symbols one character at a time.
-/

set_option autoImplicit false

namespace UsageIndex.Json

inductive Symbol where
  | openArray
  | closeArray
  | openObject
  | closeObject
  | comma
  | colon
  | scalar (s : Scalar)
  deriving DecidableEq, Repr

def hexDigit (n : Nat) : Char :=
  if n < 10 then Char.ofNat (48 + n) else Char.ofNat (87 + n)

/-- Only the quote, the backslash and the characters below the space are escaped. -/
def escape (c : Char) : List Char :=
  if c = '"' then ['\\', '"']
  else if c = '\\' then ['\\', '\\']
  else if c = '\x08' then ['\\', 'b']
  else if c = '\x0c' then ['\\', 'f']
  else if c = '\n' then ['\\', 'n']
  else if c = '\r' then ['\\', 'r']
  else if c = '\t' then ['\\', 't']
  else if c.toNat < 32 then
    ['\\', 'u', '0', '0', hexDigit (c.toNat / 16), hexDigit (c.toNat % 16)]
  else [c]

/-- A literal that denotes no text is written as one surrogate escape. -/
def Text.spelling : Text → List Char
  | some s => '"' :: s.toList.flatMap escape ++ ['"']
  | none => ['"', '\\', 'u', 'd', '8', '0', '0', '"']

def Scalar.spelling : Scalar → List Char
  | .null => ['n', 'u', 'l', 'l']
  | .bool true => ['t', 'r', 'u', 'e']
  | .bool false => ['f', 'a', 'l', 's', 'e']
  | .natural n => Nat.toDigits 10 n
  | .real cs => cs
  | .string t => Text.spelling t

def Symbol.spelling : Symbol → List Char
  | .openArray => ['[']
  | .closeArray => [']']
  | .openObject => ['\x7b']
  | .closeObject => ['\x7d']
  | .comma => [',']
  | .colon => [':']
  | .scalar s => s.spelling

inductive NumberPart where
  | sign
  | leadingZero
  | whole
  | point
  | fraction
  | exponentMark
  | exponentSign
  | exponent
  deriving DecidableEq, Repr

inductive Mode where
  | between
  /-- The letters of a literal name that still have to come. -/
  | word (rest : List Char) (value : Scalar)
  /-- A number and its characters so far, last one first. -/
  | number (part : NumberPart) (spelled : List Char)
  /-- A string literal and its code units so far, last one first. -/
  | text (units : List Nat)
  | escaped (units : List Nat)
  /-- A `\u` escape with this many digits to come and this value so far. -/
  | unicode (units : List Nat) (digits : Nat) (value : Nat)
  deriving DecidableEq, Repr

def NumberPart.next (part : NumberPart) (c : Char) : Option NumberPart :=
  match part with
  | .sign => if c = '0' then some .leadingZero else if c.isDigit then some .whole else none
  | .leadingZero => afterWhole c
  | .whole => if c.isDigit then some .whole else afterWhole c
  | .point => if c.isDigit then some .fraction else none
  | .fraction =>
    if c.isDigit then some .fraction else if c = 'e' ∨ c = 'E' then some .exponentMark else none
  | .exponentMark =>
    if c.isDigit then some .exponent else if c = '+' ∨ c = '-' then some .exponentSign else none
  | .exponentSign => if c.isDigit then some .exponent else none
  | .exponent => if c.isDigit then some .exponent else none
where
  afterWhole (c : Char) : Option NumberPart :=
    if c = '.' then some .point else if c = 'e' ∨ c = 'E' then some .exponentMark else none

def NumberPart.isFinal : NumberPart → Bool
  | .leadingZero | .whole | .fraction | .exponent => true
  | .sign | .point | .exponentMark | .exponentSign => false

def Scalar.ofNumber (spelling : List Char) : Scalar :=
  if spelling.all Char.isDigit then .natural (Nat.ofDigitChars 10 spelling 0) else .real spelling

def isHighSurrogate (n : Nat) : Bool := 0xD800 ≤ n && n < 0xDC00

def isLowSurrogate (n : Nat) : Bool := 0xDC00 ≤ n && n < 0xE000

/-- The characters of a sequence of code units: a high surrogate joins the low one after it,
and a surrogate without its partner denotes nothing. -/
def charsOfUnits : List Nat → Option (List Char)
  | [] => some []
  | n :: rest =>
    if isLowSurrogate n then none
    else if isHighSurrogate n then
      match rest with
      | m :: rest =>
        if isLowSurrogate m then
          (charsOfUnits rest).map
            (Char.ofNat (0x10000 + (n - 0xD800) * 0x400 + (m - 0xDC00)) :: ·)
        else none
      | [] => none
    else (charsOfUnits rest).map (Char.ofNat n :: ·)

def Text.ofUnits (units : List Nat) : Text :=
  (charsOfUnits units).map String.ofList

def hexValue? (c : Char) : Option Nat :=
  if '0' ≤ c ∧ c ≤ '9' then some (c.toNat - 48)
  else if 'a' ≤ c ∧ c ≤ 'f' then some (c.toNat - 87)
  else if 'A' ≤ c ∧ c ≤ 'F' then some (c.toNat - 55)
  else none

def simpleEscape? (c : Char) : Option Char :=
  if c = '"' then some '"'
  else if c = '\\' then some '\\'
  else if c = '/' then some '/'
  else if c = 'b' then some '\x08'
  else if c = 'f' then some '\x0c'
  else if c = 'n' then some '\n'
  else if c = 'r' then some '\r'
  else if c = 't' then some '\t'
  else none

def isBlank (c : Char) : Bool := c = ' ' || c = '\n' || c = '\r' || c = '\t'

/-- The scanner after some characters: the symbols read, last one first, and what is open. -/
structure Scanner where
  read : List Symbol
  mode : Mode
  deriving DecidableEq, Repr

namespace Scanner

def start : Scanner := ⟨[], .between⟩

def begin? (read : List Symbol) (c : Char) : Option Scanner :=
  if isBlank c then some ⟨read, .between⟩
  else if c = '[' then some ⟨.openArray :: read, .between⟩
  else if c = ']' then some ⟨.closeArray :: read, .between⟩
  else if c = '\x7b' then some ⟨.openObject :: read, .between⟩
  else if c = '\x7d' then some ⟨.closeObject :: read, .between⟩
  else if c = ',' then some ⟨.comma :: read, .between⟩
  else if c = ':' then some ⟨.colon :: read, .between⟩
  else if c = '"' then some ⟨read, .text []⟩
  else if c = 'n' then some ⟨read, .word ['u', 'l', 'l'] .null⟩
  else if c = 't' then some ⟨read, .word ['r', 'u', 'e'] (.bool true)⟩
  else if c = 'f' then some ⟨read, .word ['a', 'l', 's', 'e'] (.bool false)⟩
  else if c = '-' then some ⟨read, .number .sign ['-']⟩
  else if c = '0' then some ⟨read, .number .leadingZero ['0']⟩
  else if c.isDigit then some ⟨read, .number .whole [c]⟩
  else none

/-- One more character; `none` if no JSON text goes on so. -/
def step? : Scanner → Char → Option Scanner
  | ⟨read, .between⟩, c => begin? read c
  | ⟨read, .word rest value⟩, c =>
    match rest with
    | [] => none
    | [d] => if c = d then some ⟨.scalar value :: read, .between⟩ else none
    | d :: e :: ds => if c = d then some ⟨read, .word (e :: ds) value⟩ else none
  | ⟨read, .number part spelled⟩, c =>
    match part.next c with
    | some next => some ⟨read, .number next (c :: spelled)⟩
    | none =>
      if part.isFinal && !c.isDigit then
        begin? (.scalar (Scalar.ofNumber spelled.reverse) :: read) c
      else none
  | ⟨read, .text units⟩, c =>
    if c = '"' then some ⟨.scalar (.string (Text.ofUnits units.reverse)) :: read, .between⟩
    else if c = '\\' then some ⟨read, .escaped units⟩
    else if c.toNat < 32 then none
    else some ⟨read, .text (c.toNat :: units)⟩
  | ⟨read, .escaped units⟩, c =>
    if c = 'u' then some ⟨read, .unicode units 4 0⟩
    else (simpleEscape? c).map fun d => ⟨read, .text (d.toNat :: units)⟩
  | ⟨read, .unicode units digits value⟩, c =>
    match hexValue? c with
    | none => none
    | some h =>
      if digits ≤ 1 then some ⟨read, .text ((value * 16 + h) :: units)⟩
      else some ⟨read, .unicode units (digits - 1) (value * 16 + h)⟩

def run? : Scanner → List Char → Option Scanner
  | s, [] => some s
  | s, c :: cs =>
    match s.step? c with
    | none => none
    | some t => t.run? cs

def finish? : Scanner → Option (List Symbol)
  | ⟨read, .between⟩ => some read.reverse
  | ⟨read, .number part spelled⟩ =>
    if part.isFinal then some (.scalar (Scalar.ofNumber spelled.reverse) :: read).reverse
    else none
  | _ => none

theorem run?_append (s : Scanner) (xs ys : List Char) :
    s.run? (xs ++ ys) = (s.run? xs).bind (·.run? ys) := by
  induction xs generalizing s with
  | nil => rfl
  | cons c cs ih =>
    simp only [List.cons_append, run?]
    cases s.step? c with
    | none => rfl
    | some t => exact ih t

end Scanner

theorem hexValue?_hexDigit (n : Nat) (h : n < 16) : hexValue? (hexDigit n) = some n := by
  have hd : ∀ m : Fin 16, hexValue? (hexDigit m.val) = some m.val := by decide
  exact hd ⟨n, h⟩

theorem Scanner.run?_escape (read : List Symbol) (units : List Nat) (c : Char) :
    Scanner.run? ⟨read, .text units⟩ (escape c) = some ⟨read, .text (c.toNat :: units)⟩ := by
  unfold escape
  split
  · subst_vars; rfl
  split
  · subst_vars; rfl
  split
  · subst_vars; rfl
  split
  · subst_vars; rfl
  split
  · subst_vars; rfl
  split
  · subst_vars; rfl
  split
  · subst_vars; rfl
  split
  · rename_i h
    have h₀ : hexValue? '0' = some 0 := by decide
    have h₁ := hexValue?_hexDigit (c.toNat / 16) (by omega)
    have h₂ := hexValue?_hexDigit (c.toNat % 16) (by omega)
    simp [Scanner.run?, Scanner.step?, h₀, h₁, h₂]
    omega
  · simp [Scanner.run?, Scanner.step?, *]

def scan? (text : List Char) : Option (List Symbol) :=
  (Scanner.start.run? text).bind Scanner.finish?

end UsageIndex.Json
