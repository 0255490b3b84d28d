import UsageIndex.Json.Reader
import UsageIndex.Proofs.Json.Scanning

/-!
A value is read back from its text. The reader puts the symbols of a value together again,
whatever is open around it; with the scanner this makes parsing an inverse of printing, in the
compact layout, in the indented one, and in any other that adds only blanks.
-/

set_option autoImplicit false

namespace UsageIndex.Json

namespace Reader

theorem run?_cons (r : Reader) (t : Symbol) (ts : List Symbol) :
    r.run? (t :: ts) = (r.step? t).bind (·.run? ts) := by
  rw [run?]
  cases r.step? t <;> rfl

theorem run?_itemOrClose (j : Json) (fs : List Frame) (ts : List Symbol) :
    run? ⟨.itemOrClose, fs⟩ (j.symbols ++ ts) = run? ⟨.value, fs⟩ (j.symbols ++ ts) := by
  match j with
  | .scalar _ => rfl
  | .array [] => rfl
  | .array (_ :: _) => rfl
  | .object [] => rfl
  | .object (_ :: _) => rfl

mutual

/-- The symbols of a value are read as the value, which goes to what is open around it. -/
theorem run?_symbols : (j : Json) → (fs : List Frame) → (ts : List Symbol) →
    run? ⟨.value, fs⟩ (j.symbols ++ ts) = (deliver? j fs).bind (·.run? ts)
  | .scalar s, fs, ts => run?_cons ⟨.value, fs⟩ (.scalar s) ts
  | .array [], fs, ts => run?_cons ⟨.itemOrClose, .items [] :: fs⟩ .closeArray ts
  | .array (x :: xs), fs, ts => by
    have hx := run?_symbols x (.items [] :: fs)
    have hxs := run?_moreItems xs [x] fs ts
    simp [symbols, run?_cons, step?, open?, run?_itemOrClose, hx, deliver?, hxs]
  | .object [], fs, ts => run?_cons ⟨.nameOrClose, .members [] :: fs⟩ .closeObject ts
  | .object ((name, x) :: ms), fs, ts => by
    have hx := run?_symbols x (.member [] name :: fs)
    have hms := run?_moreMembers ms [(name, x)] fs ts
    simp [symbols, run?_cons, step?, open?, name?, hx, deliver?, hms]

theorem run?_moreItems : (xs read : List Json) → (fs : List Frame) → (ts : List Symbol) →
    run? ⟨.commaOrClose, .items read :: fs⟩ (moreItems xs ++ .closeArray :: ts) =
      (deliver? (.array (read.reverse ++ xs)) fs).bind (·.run? ts)
  | [], read, fs, ts => by simp [moreItems, run?_cons, step?, close?]
  | x :: xs, read, fs, ts => by
    have hx := run?_symbols x (.items read :: fs)
    have hxs := run?_moreItems xs (x :: read) fs ts
    simp [moreItems, run?_cons, step?, hx, deliver?, hxs]

theorem run?_moreMembers : (ms read : List (Text × Json)) → (fs : List Frame) →
    (ts : List Symbol) →
    run? ⟨.commaOrClose, .members read :: fs⟩ (moreMembers ms ++ .closeObject :: ts) =
      (deliver? (.object (read.reverse ++ ms)) fs).bind (·.run? ts)
  | [], read, fs, ts => by simp [moreMembers, run?_cons, step?, close?]
  | (name, x) :: ms, read, fs, ts => by
    have hx := run?_symbols x (.member read name :: fs)
    have hms := run?_moreMembers ms ((name, x) :: read) fs ts
    simp [moreMembers, run?_cons, step?, name?, hx, deliver?, hms]

end

end Reader

theorem ofSymbols?_symbols (j : Json) : ofSymbols? j.symbols = some j := by
  have h := Reader.run?_symbols j [] []
  rw [List.append_nil] at h
  rw [ofSymbols?, Reader.start, h]
  rfl

/-- Parsing undoes printing. -/
theorem parse?_render {l : Layout} (hl : l.Blank) {j : Json} (hj : j.Spellable) (depth : Nat) :
    parse? (String.ofList (j.render l depth)) = some j := by
  rw [parse?, String.toList_ofList, scan?_render hl hj]
  exact ofSymbols?_symbols j

theorem parse?_compact {j : Json} (hj : j.Spellable) : parse? j.compact = some j :=
  parse?_render Layout.blank_compact hj 0

theorem parse?_indented {j : Json} (hj : j.Spellable) : parse? j.indented = some j :=
  parse?_render Layout.blank_indented hj 0

end UsageIndex.Json
