import UsageIndex.Proofs.Element.Spellings
import UsageIndex.Proofs.Tree.Reading

/-!
The spellings of a tree. Each record in it is spelled as an object or an array, with fields left
out where they may be and unknown members between them; whatever is chosen for one record, the
others are free. All spellings are read as the tree, as long as what is read of them does not nest
too deep.
-/

set_option autoImplicit false

namespace UsageIndex

namespace Token

def needs : List (String × Json.Need) := fieldNames.map (·, .required)

def Spells (t : Token) (j : Json) : Prop :=
  Json.RecordOf fieldNames [some (.string t.lexeme), some (.ofWord t.offset)] j

theorem Spells.decode? {t : Token} {j : Json} (h : t.Spells j) : decode? j = some t := by
  rw [Token.decode?, Json.RecordOf.fields? h (by decide)]
  simp [Json.Given.ofOption, Json.Given.required, Json.text?, Json.word?_ofWord]

end Token

namespace Tree

/-- The tree stands for a field that is left out: it is absent, or an empty list where that may be
omitted. -/
inductive LeftOut (omissible : Bool) : {f : Form} → Tree f → Prop where
  | absent {f : Form} : LeftOut omissible (absent : Tree (.optional f))
  | nil {f : Form} (h : omissible = true) : LeftOut omissible (nil : Tree (.many f))

mutual

/-- The value is a spelling of the tree, and what is read of it nests this deep. -/
inductive Spells : {f : Form} → Tree f → Nat → Json → Prop where
  | token {t : Token} {j : Json} (h : t.Spells j) : Spells (.token t) 1 j
  | element (id : ElementId) : Spells (.element id) 0 id.encode
  | node {k : NodeKind} {body : Tree k.form} {d : Nat} {j : Json} (h : Spells body d j) :
      Spells (.node k body) d j
  | absent {f : Form} : Spells (absent : Tree (.optional f)) 0 .null
  | present {f : Form} {t : Tree f} {d : Nat} {j : Json} (h : Spells t d j) :
      Spells (.present t) d j
  | nil {f : Form} : Spells (nil : Tree (.many f)) 1 (.array [])
  | cons {f : Form} {x : Tree f} {xs : Tree (.many f)} {d e : Nat} {j : Json} {js : List Json}
      (hx : Spells x d j) (hxs : Spells xs e (.array js)) :
      Spells (.cons x xs) (max (d + 1) e) (.array (j :: js))
  | done {j : Json} (hj : Json.RecordOf Form.done.fieldNames [] j) : Spells .done 1 j
  | slot {name : String} {omissible : Bool} {f rest : Form} {x : Tree f} {xs : Tree rest} {d : Nat}
      {written : List (Option Json)} {j : Json}
      (hfields : SpellsFields (.slot x xs : Tree (.slot name omissible f rest)) d written)
      (hj : Json.RecordOf (Form.slot name omissible f rest).fieldNames written j) :
      Spells (.slot x xs : Tree (.slot name omissible f rest)) (d + 1) j
  | bare {tag : String} {rest : Form} :
      Spells (.here .nothing : Tree (.either tag .nothing rest)) 0 (.string tag)
  | here {tag : String} {f rest : Form} {t : Tree f} {d : Nat} {j : Json} (hf : f ≠ .nothing)
      (h : Spells t d j) : Spells (.here t : Tree (.either tag f rest)) (d + 1) (.record [(tag, j)])
  | there {tag : String} {f rest : Form} {t : Tree rest} {d : Nat} {j : Json} (h : Spells t d j) :
      Spells (.there t : Tree (.either tag f rest)) d j

inductive SpellsFields : {f : Form} → Tree f → Nat → List (Option Json) → Prop where
  | done : SpellsFields .done 0 []
  | written {name : String} {omissible : Bool} {f rest : Form} {x : Tree f} {xs : Tree rest}
      {d e : Nat} {j : Json} {ws : List (Option Json)} (hx : Spells x d j)
      (hxs : SpellsFields xs e ws) :
      SpellsFields (.slot x xs : Tree (.slot name omissible f rest)) (max d e) (some j :: ws)
  | leftOut {name : String} {omissible : Bool} {f rest : Form} {x : Tree f} {xs : Tree rest}
      {e : Nat} {ws : List (Option Json)} (hx : LeftOut omissible x) (hxs : SpellsFields xs e ws) :
      SpellsFields (.slot x xs : Tree (.slot name omissible f rest)) e (none :: ws)

end

theorem Spells.exists_fields {f : Form} {t : Tree f} {d : Nat} {j : Json} (h : t.Spells d j)
    (hf : f.isRecord = true) : ∃ e written, d = e + 1 ∧ t.SpellsFields e written ∧
      Json.RecordOf f.fieldNames written j := by
  cases h with
  | done hj => exact ⟨0, [], rfl, .done, hj⟩
  | slot hfields hj => exact ⟨_, _, rfl, hfields, hj⟩
  | _ => cases hf

theorem SpellsFields.isRecord {f : Form} {t : Tree f} {d : Nat} {written : List (Option Json)}
    (h : t.SpellsFields d written) : f.isRecord = true := by
  cases h <;> rfl

theorem Spells.ne_null {f : Form} {t : Tree f} {d : Nat} {j : Json} (h : t.Spells d j)
    (hf : f.isReadable = true) (hnull : f.mayBeNull = false) : j ≠ .null := by
  induction t generalizing d j with
  | token t =>
    cases h with
    | token h => exact h.ne_scalar .null
  | element id =>
    cases h
    simp [ElementId.encode, Json.ofWord]
  | node k body ih =>
    cases h with
    | node h => exact ih h k.isReadable_form.1 (Form.mayBeNull_eq_false k.isReadable_form.2)
  | absent => cases hnull
  | present t ih => cases hnull
  | done =>
    cases h with
    | done hj => exact hj.ne_scalar .null
  | slot x xs ihx ihxs =>
    cases h with
    | slot _ hj => exact hj.ne_scalar .null
  | there t ih =>
    simp only [Form.isReadable, Bool.and_eq_true] at hf
    cases h with
    | there h => exact ih h hf.1.2 (Form.mayBeNull_eq_false (by simp [hf.1.1.2]))
  | _ =>
    rintro rfl
    cases h

def ReadsFrom {f : Form} (t : Tree f) (d : Nat) (j : Json) : Prop :=
  ∀ limit, decodeWithin? limit f j = if d ≤ limit then some t else none

def ReadsFieldsFrom {f : Form} (t : Tree f) (d : Nat) (written : List (Option Json)) : Prop :=
  ∀ limit, decodeFields? (decodeWithin? limit) f (written.map .ofOption) =
    if d ≤ limit then some t else none

inductive ReadsChoiceFrom {f : Form} (t : Tree f) : Nat → Json → Prop where
  | bare {tag : String} (htag : tag ∈ f.tags) (h : decodeBare? tag f = some t) :
      ReadsChoiceFrom t 0 (.string tag)
  | tagged {tag : String} {content : Json} {d : Nat} (htag : tag ∈ f.tags)
      (h : ∀ limit, decodeTagged? (decodeWithin? limit) tag content f =
        if d ≤ limit then some t else none) :
      ReadsChoiceFrom t (d + 1) (.record [(tag, content)])

section Constructs

variable {f rest : Form} {d e : Nat} {j : Json}

theorem readsFrom_token {t : Token} (h : t.Spells j) : (Tree.token t).ReadsFrom 1 j := by
  intro limit
  cases limit with
  | zero => rfl
  | succ limit =>
    rw [if_pos (Nat.le_add_left 1 limit), decodeWithin?, decodeWith?, h.decode?]
    rfl

theorem readsFrom_element (id : ElementId) : (Tree.element id).ReadsFrom 0 id.encode := by
  intro limit
  rw [if_pos (Nat.zero_le limit), decodeWithin?_eq, decodeWith?, ElementId.decode?_encode]
  rfl

theorem ReadsFrom.node {k : NodeKind} {body : Tree k.form} (h : body.ReadsFrom d j) :
    (Tree.node k body).ReadsFrom d j := by
  intro limit
  rw [decodeWithin?_node, h limit]
  split <;> rfl

theorem readsFrom_absent (f : Form) : (absent : Tree (.optional f)).ReadsFrom 0 .null := by
  intro limit
  rw [if_pos (Nat.zero_le limit), decodeWithin?_eq]
  rfl

theorem ReadsFrom.present {t : Tree f} (h : t.ReadsFrom d j) (hnull : j ≠ .null) :
    (present t).ReadsFrom d j := by
  intro limit
  rw [decodeWithin?_optional hnull, h limit]
  split <;> rfl

theorem readsFrom_nil (f : Form) : (nil : Tree (.many f)).ReadsFrom 1 (.array []) := by
  intro limit
  cases limit with
  | zero => rfl
  | succ limit =>
    rw [if_pos (Nat.le_add_left 1 limit)]
    rfl

theorem ReadsFrom.cons {x : Tree f} {xs : Tree (.many f)} {js : List Json} (hx : x.ReadsFrom d j)
    (hxs : xs.ReadsFrom e (.array js)) :
    (cons x xs).ReadsFrom (max (d + 1) e) (.array (j :: js)) := by
  intro limit
  cases limit with
  | zero =>
    rw [if_neg (by omega)]
    rfl
  | succ limit =>
    rw [decodeWithin?_cons, hx limit, hxs (limit + 1), bind_ite_some]
    simp only [Nat.max_le, Nat.add_le_add_iff_right]

theorem readsFieldsFrom_done : done.ReadsFieldsFrom 0 [] := by
  intro limit
  rw [if_pos (Nat.zero_le limit)]
  rfl

theorem ReadsFieldsFrom.written {name : String} {omissible : Bool} {x : Tree f} {xs : Tree rest}
    {ws : List (Option Json)} (hx : x.ReadsFrom d j) (hxs : xs.ReadsFieldsFrom e ws) :
    (slot x xs : Tree (.slot name omissible f rest)).ReadsFieldsFrom (max d e) (some j :: ws) := by
  intro limit
  rw [List.map_cons, Json.Given.ofOption, decodeFields?_slot, hx limit, hxs limit, bind_ite_some]
  simp only [Nat.max_le]

theorem LeftOut.decodeField? {omissible : Bool} {x : Tree f} (h : LeftOut omissible x)
    (inner : Decoder) : decodeField? inner omissible f .unnamed = some x := by
  cases h with
  | absent => rfl
  | nil h =>
    subst h
    rfl

theorem ReadsFieldsFrom.leftOut {name : String} {omissible : Bool} {x : Tree f} {xs : Tree rest}
    {ws : List (Option Json)} (hx : LeftOut omissible x) (hxs : xs.ReadsFieldsFrom e ws) :
    (slot x xs : Tree (.slot name omissible f rest)).ReadsFieldsFrom e (none :: ws) := by
  intro limit
  rw [List.map_cons, Json.Given.ofOption, decodeFields?, hx.decodeField?, hxs limit]
  split <;> rfl

theorem ReadsFieldsFrom.readsFrom {t : Tree f} {written : List (Option Json)}
    (h : t.ReadsFieldsFrom d written) (hf : f.isReadable = true) (hrecord : f.isRecord = true)
    (hj : Json.RecordOf f.fieldNames written j) : t.ReadsFrom (d + 1) j := by
  intro limit
  rw [decodeWithin?_body (by simp [hrecord]), decodeBody?, Form.isChoice_eq_false hrecord,
    decodeRecord?, hj.fields? (Form.nodup_fieldNames hf)]
  cases limit with
  | zero => simp [inside?]
  | succ limit =>
    simp only [Nat.add_le_add_iff_right, ← h limit]
    rfl

theorem ReadsFrom.here {tag : String} {t : Tree f} (h : t.ReadsFrom d j) (hf : f ≠ .nothing) :
    (here t : Tree (.either tag f rest)).ReadsChoiceFrom (d + 1) (.record [(tag, j)]) := by
  refine .tagged List.mem_cons_self fun limit => ?_
  rw [decodeTagged?_here hf, h limit]
  split <;> rfl

theorem ReadsChoiceFrom.there {tag : String} {t : Tree rest} (h : t.ReadsChoiceFrom d j)
    (htag : tag ∉ rest.tags) : (there t : Tree (.either tag f rest)).ReadsChoiceFrom d j := by
  cases h with
  | @bare other hother hdecode =>
    have hne : tag ≠ other := fun heq => htag (heq ▸ hother)
    refine .bare (List.mem_cons_of_mem tag hother) ?_
    rw [decodeBare?_there hne, hdecode]
    rfl
  | @tagged other content d hother hdecode =>
    have hne : tag ≠ other := fun heq => htag (heq ▸ hother)
    refine .tagged (List.mem_cons_of_mem tag hother) fun limit => ?_
    rw [decodeTagged?_there hne, hdecode limit]
    split <;> rfl

theorem ReadsChoiceFrom.readsFrom {t : Tree f} (h : t.ReadsChoiceFrom d j)
    (hchoice : f.isChoice = true) : t.ReadsFrom d j := by
  intro limit
  rw [decodeWithin?_body (by simp [hchoice]), decodeBody?, if_pos hchoice]
  cases h with
  | bare htag hbare =>
    rw [if_pos (Nat.zero_le limit), ← hbare]
    rfl
  | tagged htag htagged =>
    cases limit with
    | zero =>
      rw [if_neg (Nat.not_succ_le_zero _)]
      rfl
    | succ limit =>
      simp only [Nat.add_le_add_iff_right, ← htagged limit]
      rfl

end Constructs

/-- A tree of a readable form is read from all its spellings, and if it is a part of a record or of
a choice then so is the part. -/
structure Readable {f : Form} (t : Tree f) : Prop where
  whole : ∀ {d j}, t.Spells d j → t.ReadsFrom d j
  fields : ∀ {d written}, t.SpellsFields d written → t.ReadsFieldsFrom d written
  choice : f.isChoice = true → ∀ {d j}, t.Spells d j → t.ReadsChoiceFrom d j

theorem Readable.ofPart {f : Form} {t : Tree f} (hrecord : f.isRecord = false)
    (hchoice : f.isChoice = false) (h : ∀ {d j}, t.Spells d j → t.ReadsFrom d j) : t.Readable where
  whole := h
  fields hwritten := absurd hwritten.isRecord (by simp [hrecord])
  choice hf := by simp [hchoice] at hf

theorem Readable.ofRecord {f : Form} {t : Tree f} (hf : f.isReadable = true)
    (hrecord : f.isRecord = true)
    (h : ∀ {d written}, t.SpellsFields d written → t.ReadsFieldsFrom d written) : t.Readable where
  whole hj := by
    obtain ⟨e, written, rfl, hfields, hrecordOf⟩ := hj.exists_fields hrecord
    exact (h hfields).readsFrom hf hrecord hrecordOf
  fields := h
  choice hchoice := by simp [Form.isChoice_eq_false hrecord] at hchoice

theorem Readable.ofChoice {f : Form} {t : Tree f} (hchoice : f.isChoice = true)
    (h : ∀ {d j}, t.Spells d j → t.ReadsChoiceFrom d j) : t.Readable where
  whole hj := (h hj).readsFrom hchoice
  fields hwritten := by simp [Form.isChoice_eq_false hwritten.isRecord] at hchoice
  choice _ := h

theorem readable {f : Form} (t : Tree f) (hf : f.isReadable = true) : t.Readable := by
  -- A record is a chain of slots and a choice a chain of alternatives. Their ends are not read on
  -- their own, so the induction carries what is known of a chain beside what is read of a tree.
  induction t with
  | token t =>
    refine .ofPart rfl rfl fun h => ?_
    cases h with
    | token h => exact readsFrom_token h
  | element id =>
    refine .ofPart rfl rfl fun h => ?_
    cases h
    exact readsFrom_element id
  | node k body ih =>
    refine .ofPart rfl rfl fun h => ?_
    cases h with
    | node h => exact ((ih k.isReadable_form.1).whole h).node
  | absent =>
    refine .ofPart rfl rfl fun h => ?_
    cases h
    exact readsFrom_absent _
  | present t ih =>
    simp only [Form.isReadable, Bool.and_eq_true, Bool.not_eq_true'] at hf
    refine .ofPart rfl rfl fun h => ?_
    cases h with
    | present h => exact ((ih hf.1).whole h).present (h.ne_null hf.1 hf.2)
  | nil =>
    refine .ofPart rfl rfl fun h => ?_
    cases h
    exact readsFrom_nil _
  | cons x xs ihx ihxs =>
    refine .ofPart rfl rfl fun h => ?_
    cases h with
    | cons hx hxs => exact ((ihx hf).whole hx).cons ((ihxs hf).whole hxs)
  | nothing => cases hf
  | done =>
    refine .ofRecord rfl rfl fun h => ?_
    cases h
    exact readsFieldsFrom_done
  | slot x xs ihx ihxs =>
    have hparts := hf
    simp only [Form.isReadable, Bool.and_eq_true] at hparts
    obtain ⟨⟨⟨hx, -⟩, hxs⟩, -⟩ := hparts
    refine .ofRecord hf rfl fun h => ?_
    cases h with
    | written hj hws => exact .written ((ihx hx).whole hj) ((ihxs hxs).fields hws)
    | leftOut hleft hws => exact .leftOut hleft ((ihxs hxs).fields hws)
  | here t ih =>
    simp only [Form.isReadable, Bool.and_eq_true, Bool.or_eq_true, beq_iff_eq] at hf
    obtain ⟨⟨⟨ht, -⟩, -⟩, -⟩ := hf
    refine .ofChoice rfl fun h => ?_
    cases h with
    | bare => exact .bare List.mem_cons_self (by simp [decodeBare?])
    | here hnothing h => exact ((ih (ht.resolve_left hnothing)).whole h).here hnothing
  | there t ih =>
    simp only [Form.isReadable, Bool.and_eq_true, Bool.not_eq_true', List.contains_eq_mem,
      decide_eq_false_iff_not] at hf
    obtain ⟨⟨⟨-, hchoice⟩, ht⟩, htag⟩ := hf
    refine .ofChoice rfl fun h => ?_
    cases h with
    | there h => exact ((ih ht).choice hchoice h).there htag

structure Shallow {f : Form} (t : Tree f) : Prop where
  whole : ∀ {d j}, t.Spells d j → d ≤ j.depth
  fields : ∀ {d written}, t.SpellsFields d written → ∀ {limit : Nat},
    (∀ v, some v ∈ written → v.depth ≤ limit) → d ≤ limit

theorem Shallow.ofPart {f : Form} {t : Tree f} (hf : f.isRecord = false)
    (h : ∀ {d j}, t.Spells d j → d ≤ j.depth) : t.Shallow where
  whole := h
  fields hwritten := absurd hwritten.isRecord (by simp [hf])

theorem Shallow.ofRecord {f : Form} {t : Tree f} (hf : f.isRecord = true)
    (h : ∀ {d written}, t.SpellsFields d written → ∀ {limit : Nat},
      (∀ v, some v ∈ written → v.depth ≤ limit) → d ≤ limit) : t.Shallow where
  whole {d j} hj := by
    obtain ⟨e, written, rfl, hfields, hrecord⟩ := hj.exists_fields hf
    have hpos : 0 < j.depth := by cases hrecord <;> exact Nat.succ_pos _
    have hle := h hfields fun v hv => Nat.le_sub_one_of_lt (hrecord.depth_lt hv)
    omega
  fields := h

theorem shallow {f : Form} (t : Tree f) : t.Shallow := by
  induction t with
  | token t =>
    refine .ofPart rfl fun h => ?_
    cases h with
    | token h => cases h <;> exact Nat.succ_pos _
  | element id =>
    refine .ofPart rfl fun h => ?_
    cases h
    exact Nat.zero_le _
  | node k body ih =>
    refine .ofPart rfl fun h => ?_
    cases h with
    | node h => exact ih.whole h
  | absent =>
    refine .ofPart rfl fun h => ?_
    cases h
    exact Nat.zero_le _
  | present t ih =>
    refine .ofPart rfl fun h => ?_
    cases h with
    | present h => exact ih.whole h
  | nil =>
    refine .ofPart rfl fun h => ?_
    cases h
    exact Nat.le_refl 1
  | cons x xs ihx ihxs =>
    refine .ofPart rfl fun h => ?_
    cases h with
    | cons hx hxs =>
      have hhead := ihx.whole hx
      have htail := ihxs.whole hxs
      simp only [Json.depth, Json.depthItems] at htail ⊢
      omega
  | nothing =>
    refine .ofPart rfl fun h => ?_
    cases h
  | done =>
    refine .ofRecord rfl fun h _ _ => ?_
    cases h
    exact Nat.zero_le _
  | slot x xs ihx ihxs =>
    refine .ofRecord rfl fun h limit hlimit => ?_
    cases h with
    | written hj hws =>
      have hx := Nat.le_trans (ihx.whole hj) (hlimit _ List.mem_cons_self)
      exact Nat.max_le.2 ⟨hx, ihxs.fields hws fun v hv => hlimit v (List.mem_cons_of_mem _ hv)⟩
    | leftOut _ hws => exact ihxs.fields hws fun v hv => hlimit v (List.mem_cons_of_mem _ hv)
  | here t ih =>
    refine .ofPart rfl fun h => ?_
    cases h with
    | bare => exact Nat.zero_le _
    | here _ h =>
      have hcontent := ih.whole h
      simp only [Json.record, List.map_cons, List.map_nil, Json.depth, Json.depthMembers]
      omega
  | there t ih =>
    refine .ofPart rfl fun h => ?_
    cases h with
    | there h => exact ih.whole h

end Tree

end UsageIndex
