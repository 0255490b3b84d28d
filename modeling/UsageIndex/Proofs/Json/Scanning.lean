import UsageIndex.Json.Printer

/-!
What the scanner makes of a written value. A scalar is read as the scalar that was spelled,
provided that what follows a number cannot go on with it, and blanks between the symbols are
passed over; so the text of a value, in any layout of blanks, is read as the symbols of the value.
-/

set_option autoImplicit false

namespace UsageIndex.Json

/-- The symbols of a text that follows on symbols already read, last one first. -/
def scanFrom? (read : List Symbol) (text : List Char) : Option (List Symbol) :=
  (Scanner.run? ⟨read, .between⟩ text).bind Scanner.finish?

section

variable (read : List Symbol) (text : List Char)

@[simp] theorem scanFrom?_nil : scanFrom? read [] = some read.reverse := rfl

@[simp] theorem scanFrom?_openArray :
    scanFrom? read ('[' :: text) = scanFrom? (.openArray :: read) text := rfl

@[simp] theorem scanFrom?_closeArray :
    scanFrom? read (']' :: text) = scanFrom? (.closeArray :: read) text := rfl

@[simp] theorem scanFrom?_openObject :
    scanFrom? read ('\x7b' :: text) = scanFrom? (.openObject :: read) text := rfl

@[simp] theorem scanFrom?_closeObject :
    scanFrom? read ('\x7d' :: text) = scanFrom? (.closeObject :: read) text := rfl

@[simp] theorem scanFrom?_comma :
    scanFrom? read (',' :: text) = scanFrom? (.comma :: read) text := rfl

@[simp] theorem scanFrom?_colon :
    scanFrom? read (':' :: text) = scanFrom? (.colon :: read) text := rfl

theorem scanFrom?_blanks {blanks : List Char} (h : ∀ c ∈ blanks, isBlank c = true) :
    scanFrom? read (blanks ++ text) = scanFrom? read text := by
  induction blanks with
  | nil => rfl
  | cons c blanks ih =>
    have hc := h c List.mem_cons_self
    have hrest := ih fun d hd => h d (List.mem_cons_of_mem c hd)
    rw [← hrest, scanFrom?, scanFrom?]
    simp [Scanner.run?, Scanner.step?, Scanner.begin?, hc]

end

namespace NumberPart

def first? (c : Char) : Option NumberPart :=
  if c = '-' then some .sign
  else if c = '0' then some .leadingZero
  else if c.isDigit then some .whole
  else none

def run? : NumberPart → List Char → Option NumberPart
  | part, [] => some part
  | part, c :: cs => (part.next c).bind (·.run? cs)

end NumberPart

def IsNumber : List Char → Prop
  | [] => False
  | c :: cs => ∃ part last, NumberPart.first? c = some part ∧ part.run? cs = some last ∧
      last.isFinal = true

def isDelimiter (c : Char) : Bool := isBlank c || c = ',' || c = ']' || c = '\x7d'

def Delimited : List Char → Prop
  | [] => True
  | c :: _ => isDelimiter c = true

theorem next_of_isDelimiter {c : Char} (hc : isDelimiter c = true) (part : NumberPart) :
    part.next c = none ∧ c.isDigit = false := by
  have hcases : c = ' ' ∨ c = '\n' ∨ c = '\r' ∨ c = '\t' ∨ c = ',' ∨ c = ']' ∨ c = '\x7d' := by
    simpa [isDelimiter, isBlank, or_assoc] using hc
  rcases hcases with rfl | rfl | rfl | rfl | rfl | rfl | rfl <;>
    cases part <;> exact ⟨rfl, rfl⟩

theorem begin?_of_first? {c : Char} {part : NumberPart} (h : NumberPart.first? c = some part)
    (read : List Symbol) : Scanner.begin? read c = some ⟨read, .number part [c]⟩ := by
  unfold NumberPart.first? at h
  split at h
  · subst c; cases h; rfl
  split at h
  · subst c; cases h; rfl
  split at h
  · rename_i _ hzero hdigit
    cases h
    have hne : ∀ d : Char, d.isDigit = false → c ≠ d := by
      rintro d hd rfl
      simp [hd] at hdigit
    simp [Scanner.begin?, isBlank, hne, hdigit, hzero]
  · cases h

theorem run?_number {part last : NumberPart} {cs : List Char} (h : part.run? cs = some last)
    (read : List Symbol) (spelled text : List Char) :
    Scanner.run? ⟨read, .number part spelled⟩ (cs ++ text) =
      Scanner.run? ⟨read, .number last (cs.reverse ++ spelled)⟩ text := by
  induction cs generalizing part spelled with
  | nil =>
    cases h
    rfl
  | cons c cs ih =>
    simp only [NumberPart.run?, Option.bind_eq_some_iff] at h
    obtain ⟨next, hnext, hrest⟩ := h
    simp [Scanner.run?, Scanner.step?, hnext, ih hrest]

/-- A number ends where the text goes on with something else. -/
theorem finish?_number {part : NumberPart} (hpart : part.isFinal = true) {text : List Char}
    (htext : Delimited text) (read : List Symbol) (spelled : List Char) :
    (Scanner.run? ⟨read, .number part spelled⟩ text).bind Scanner.finish? =
      scanFrom? (.scalar (.ofNumber spelled.reverse) :: read) text := by
  cases text with
  | nil => simp [Scanner.run?, Scanner.finish?, hpart]
  | cons c text =>
    obtain ⟨hnext, hdigit⟩ := next_of_isDelimiter htext part
    simp [scanFrom?, Scanner.run?, Scanner.step?, hnext, hpart, hdigit]

theorem scanFrom?_number {cs text : List Char} (h : IsNumber cs) (htext : Delimited text)
    (read : List Symbol) :
    scanFrom? read (cs ++ text) = scanFrom? (.scalar (.ofNumber cs) :: read) text := by
  cases cs with
  | nil => cases h
  | cons c cs =>
    obtain ⟨part, last, hfirst, hrun, hlast⟩ := h
    have hend := finish?_number hlast htext read (cs.reverse ++ [c])
    simp only [List.reverse_append, List.reverse_reverse, List.reverse_singleton,
      List.singleton_append] at hend
    rw [← hend, ← run?_number hrun]
    simp [scanFrom?, Scanner.run?, Scanner.step?, begin?_of_first? hfirst]

theorem run?_whole {cs : List Char} (h : ∀ c ∈ cs, c.isDigit = true) :
    NumberPart.whole.run? cs = some .whole := by
  induction cs with
  | nil => rfl
  | cons c cs ih =>
    simp only [List.mem_cons, forall_eq_or_imp] at h
    simp [NumberPart.run?, NumberPart.next, h.1, ih h.2]

theorem exists_toDigits_eq_cons {n : Nat} (hn : 0 < n) :
    ∃ c cs, Nat.toDigits 10 n = c :: cs ∧ c ≠ '0' := by
  induction n using Nat.strongRecOn with
  | ind n ih =>
    by_cases hlt : n < 10
    · refine ⟨n.digitChar, [], Nat.toDigits_of_lt_base hlt, ?_⟩
      have hdigits : ∀ d : Fin 10, 0 < d.val → d.val.digitChar ≠ '0' := by decide
      exact hdigits ⟨n, hlt⟩ hn
    · obtain ⟨c, cs, hdigits, hc⟩ := ih (n / 10) (by omega) (by omega)
      refine ⟨c, cs ++ [(n % 10).digitChar], ?_, hc⟩
      rw [Nat.toDigits_of_base_le (by decide) (by omega), hdigits]
      rfl

theorem isDigit_of_mem_toDigits {n : Nat} {c : Char} (h : c ∈ Nat.toDigits 10 n) :
    c.isDigit = true :=
  Nat.isDigit_of_mem_toDigits (by decide) (by decide) h

theorem isNumber_toDigits (n : Nat) : IsNumber (Nat.toDigits 10 n) := by
  rcases Nat.eq_zero_or_pos n with rfl | hn
  · exact ⟨.leadingZero, .leadingZero, rfl, rfl, rfl⟩
  · obtain ⟨c, cs, hdigits, hc⟩ := exists_toDigits_eq_cons hn
    have hall : ∀ d ∈ c :: cs, d.isDigit = true := by
      intro d hd
      exact isDigit_of_mem_toDigits (hdigits ▸ hd)
    rw [hdigits]
    refine ⟨.whole, .whole, ?_, run?_whole fun d hd => hall d (List.mem_cons_of_mem c hd), rfl⟩
    have hdigit := hall c List.mem_cons_self
    have hsign : c ≠ '-' := by
      rintro rfl
      cases hdigit
    simp [NumberPart.first?, hsign, hc, hdigit]

theorem ofNumber_toDigits (n : Nat) : Scalar.ofNumber (Nat.toDigits 10 n) = .natural n := by
  have hall : (Nat.toDigits 10 n).all Char.isDigit = true :=
    List.all_eq_true.2 fun c hc => isDigit_of_mem_toDigits hc
  simp [Scalar.ofNumber, hall, Nat.ofDigitChars_ten_toDigits]

theorem charsOfUnits_map_toNat (cs : List Char) : charsOfUnits (cs.map Char.toNat) = some cs := by
  induction cs with
  | nil => rfl
  | cons c cs ih =>
    have hvalid : c.toNat < 0xD800 ∨ 0xE000 ≤ c.toNat := by
      rcases c.valid with h | h
      · exact .inl h
      · exact .inr h.1
    have hlow : isLowSurrogate c.toNat = false := by simp [isLowSurrogate]; omega
    have hhigh : isHighSurrogate c.toNat = false := by simp [isHighSurrogate]; omega
    rw [List.map_cons, charsOfUnits.eq_def]
    simp [hlow, hhigh, ih]

theorem run?_escapes (cs : List Char) (read : List Symbol) (units : List Nat)
    (text : List Char) :
    Scanner.run? ⟨read, .text units⟩ (cs.flatMap escape ++ text) =
      Scanner.run? ⟨read, .text ((cs.map Char.toNat).reverse ++ units)⟩ text := by
  induction cs generalizing units with
  | nil => rfl
  | cons c cs ih =>
    rw [List.flatMap_cons, List.append_assoc, Scanner.run?_append, Scanner.run?_escape]
    simp [ih]

theorem scanFrom?_text (t : Text) (read : List Symbol) (text : List Char) :
    scanFrom? read (t.spelling ++ text) = scanFrom? (.scalar (.string t) :: read) text := by
  cases t with
  | none => rfl
  | some s =>
    have hunits : Text.ofUnits (s.toList.map Char.toNat) = some s := by
      simp [Text.ofUnits, charsOfUnits_map_toNat]
    have hopen : Scanner.begin? read '"' = some ⟨read, .text []⟩ := rfl
    simp [scanFrom?, Text.spelling, Scanner.run?, Scanner.step?, hopen, run?_escapes, hunits]

/-- Whether the scalar is spelled as the grammar has it. Only numbers that keep their spelling
may fail to be. -/
def Scalar.Spellable : Scalar → Prop
  | .real cs => IsNumber cs ∧ cs.all Char.isDigit = false
  | _ => True

theorem scanFrom?_scalar {s : Scalar} (hs : s.Spellable) {text : List Char}
    (htext : Delimited text) (read : List Symbol) :
    scanFrom? read (s.spelling ++ text) = scanFrom? (.scalar s :: read) text := by
  cases s with
  | null => rfl
  | bool b => cases b <;> rfl
  | natural n =>
    rw [Scalar.spelling, scanFrom?_number (isNumber_toDigits n) htext, ofNumber_toDigits]
  | real cs =>
    rw [Scalar.spelling, scanFrom?_number hs.1 htext, Scalar.ofNumber, if_neg (by simp [hs.2])]
  | string t => exact scanFrom?_text t read text

mutual

def symbols : Json → List Symbol
  | .scalar s => [.scalar s]
  | .array [] => [.openArray, .closeArray]
  | .array (x :: xs) => .openArray :: (symbols x ++ (moreItems xs ++ [.closeArray]))
  | .object [] => [.openObject, .closeObject]
  | .object ((name, x) :: ms) =>
    .openObject :: .scalar (.string name) :: .colon
      :: (symbols x ++ (moreMembers ms ++ [.closeObject]))

def moreItems : List Json → List Symbol
  | [] => []
  | x :: xs => .comma :: (symbols x ++ moreItems xs)

def moreMembers : List (Text × Json) → List Symbol
  | [] => []
  | (name, x) :: ms =>
    .comma :: .scalar (.string name) :: .colon :: (symbols x ++ moreMembers ms)

end

mutual

def Spellable : Json → Prop
  | .scalar s => s.Spellable
  | .array xs => SpellableItems xs
  | .object ms => SpellableMembers ms

def SpellableItems : List Json → Prop
  | [] => True
  | x :: xs => Spellable x ∧ SpellableItems xs

def SpellableMembers : List (Text × Json) → Prop
  | [] => True
  | (_, x) :: ms => Spellable x ∧ SpellableMembers ms

end

structure Layout.Blank (l : Layout) : Prop where
  line : ∀ depth, ∀ c ∈ l.line depth, isBlank c = true
  gap : ∀ c ∈ l.gap, isBlank c = true

theorem Layout.blank_compact : Layout.compact.Blank where
  line := nofun
  gap := nofun

theorem Layout.blank_indented : Layout.indented.Blank where
  line := by
    intro depth c hc
    rcases List.mem_cons.1 hc with rfl | hc
    · rfl
    · rw [List.eq_of_mem_replicate hc]
      rfl
  gap := by
    intro c hc
    rw [List.mem_singleton.1 hc]
    rfl

theorem Layout.Blank.delimited_line {l : Layout} (hl : l.Blank) (depth : Nat) {c : Char}
    (hc : isDelimiter c = true) (text : List Char) : Delimited (l.line depth ++ c :: text) := by
  cases hline : l.line depth with
  | nil => exact hc
  | cons d rest =>
    have hd := hl.line depth d (by simp [hline])
    simp [Delimited, isDelimiter, hd]

theorem delimited_renderItems (l : Layout) (depth : Nat) (xs : List Json) {text : List Char}
    (htext : Delimited text) : Delimited (renderItems l depth xs ++ text) := by
  cases xs with
  | nil => exact htext
  | cons x xs => rfl

theorem delimited_renderMembers (l : Layout) (depth : Nat) (ms : List (Text × Json))
    {text : List Char} (htext : Delimited text) :
    Delimited (renderMembers l depth ms ++ text) := by
  cases ms with
  | nil => exact htext
  | cons m ms => rfl

mutual

theorem scanFrom?_render {l : Layout} (hl : l.Blank) : (j : Json) → j.Spellable →
    (depth : Nat) → (read : List Symbol) → {text : List Char} → Delimited text →
    scanFrom? read (j.render l depth ++ text) = scanFrom? (j.symbols.reverse ++ read) text
  | .scalar s, hj, depth, read, text, htext => scanFrom?_scalar hj htext read
  | .array [], hj, depth, read, text, htext => rfl
  | .array (x :: xs), hj, depth, read, text, htext => by
    have hclose : Delimited (l.line depth ++ ']' :: text) := hl.delimited_line depth rfl text
    have hx := fun read => scanFrom?_render hl x hj.1 (depth + 1) read
      (delimited_renderItems l (depth + 1) xs hclose)
    have hxs := fun read => scanFrom?_renderItems hl xs hj.2 (depth + 1) read hclose
    simp [render, symbols, scanFrom?_blanks _ _ (hl.line _), hx, hxs]
  | .object [], hj, depth, read, text, htext => rfl
  | .object ((name, x) :: ms), hj, depth, read, text, htext => by
    have hclose : Delimited (l.line depth ++ '\x7d' :: text) := hl.delimited_line depth rfl text
    have hx := fun read => scanFrom?_render hl x hj.1 (depth + 1) read
      (delimited_renderMembers l (depth + 1) ms hclose)
    have hms := fun read => scanFrom?_renderMembers hl ms hj.2 (depth + 1) read hclose
    simp [render, symbols, scanFrom?_blanks _ _ (hl.line _), scanFrom?_blanks _ _ hl.gap,
      scanFrom?_text, hx, hms]

theorem scanFrom?_renderItems {l : Layout} (hl : l.Blank) : (xs : List Json) →
    SpellableItems xs → (depth : Nat) → (read : List Symbol) → {text : List Char} →
    Delimited text →
    scanFrom? read (renderItems l depth xs ++ text) =
      scanFrom? ((moreItems xs).reverse ++ read) text
  | [], hxs, depth, read, text, htext => rfl
  | x :: xs, hxs, depth, read, text, htext => by
    have hx := fun read => scanFrom?_render hl x hxs.1 depth read
      (delimited_renderItems l depth xs htext)
    have hrest := fun read => scanFrom?_renderItems hl xs hxs.2 depth read htext
    simp [renderItems, moreItems, scanFrom?_blanks _ _ (hl.line _), hx, hrest]

theorem scanFrom?_renderMembers {l : Layout} (hl : l.Blank) : (ms : List (Text × Json)) →
    SpellableMembers ms → (depth : Nat) → (read : List Symbol) → {text : List Char} →
    Delimited text →
    scanFrom? read (renderMembers l depth ms ++ text) =
      scanFrom? ((moreMembers ms).reverse ++ read) text
  | [], hms, depth, read, text, htext => rfl
  | (name, x) :: ms, hms, depth, read, text, htext => by
    have hx := fun read => scanFrom?_render hl x hms.1 depth read
      (delimited_renderMembers l depth ms htext)
    have hrest := fun read => scanFrom?_renderMembers hl ms hms.2 depth read htext
    simp [renderMembers, moreMembers, scanFrom?_blanks _ _ (hl.line _),
      scanFrom?_blanks _ _ hl.gap, scanFrom?_text, hx, hrest]

end

/-- The text of a value is read as its symbols. -/
theorem scan?_render {l : Layout} (hl : l.Blank) {j : Json} (hj : j.Spellable) (depth : Nat) :
    scan? (j.render l depth) = some j.symbols := by
  have hend : Delimited [] := trivial
  have h := scanFrom?_render hl j hj depth [] hend
  simp only [List.append_nil, scanFrom?_nil, List.reverse_reverse] at h
  exact h

end UsageIndex.Json
