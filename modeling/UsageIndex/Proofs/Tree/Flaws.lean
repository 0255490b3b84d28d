import UsageIndex.Proofs.Tree.Spellings

/-!
Values that spell no tree. A record with a known name twice, with too many or too few items or
without a field that it needs is refused, and so is everything that has it at a place where it
would be read. An array that lacks an item has the others one place too early, which some of the
places do not take; that this is so for every kind of node is read off the grammar.
-/

set_option autoImplicit false

namespace UsageIndex

def Field.need (field : Field) : Json.Need :=
  if field.omissible then .omissible
  else match field.form with
    | .optional _ => .optional
    | _ => .required

namespace Form

def fields : Form → List Field
  | .slot name omissible f rest => ⟨name, f, omissible⟩ :: rest.fields
  | _ => []

def needs (f : Form) : List (String × Json.Need) :=
  f.fields.map fun field => (field.name, field.need)

def alternatives : Form → List (String × Form)
  | .either tag f rest => (tag, f) :: rest.alternatives
  | _ => []

theorem map_fst_needs (f : Form) : f.needs.map Prod.fst = f.fieldNames := by
  induction f with
  | slot name omissible f rest ihf ihrest => exact congrArg (name :: ·) ihrest
  | _ => rfl

theorem isReadable_of_mem_fields {f : Form} (hf : f.isReadable = true) {field : Field}
    (h : field ∈ f.fields) : field.form.isReadable = true := by
  induction f with
  | slot name omissible g rest ihg ihrest =>
    simp only [isReadable, Bool.and_eq_true] at hf
    rcases List.mem_cons.1 h with rfl | hrest
    · exact hf.1.1.1
    · exact ihrest hf.1.2 hrest
  | _ => cases h

theorem isRecord_of_mem_fields {f : Form} {field : Field} (h : field ∈ f.fields) :
    f.isRecord = true := by
  cases f with
  | slot name omissible f rest => rfl
  | _ => cases h

theorem isChoice_of_mem_alternatives {f : Form} {alternative : String × Form}
    (h : alternative ∈ f.alternatives) : f.isChoice = true := by
  cases f with
  | either tag f rest => rfl
  | _ => cases h

theorem isReadable_of_mem_alternatives {f g : Form} {tag : String} (hf : f.isReadable = true)
    (h : (tag, g) ∈ f.alternatives) (hg : g ≠ .nothing) : g.isReadable = true := by
  induction f with
  | either other f rest ihf ihrest =>
    simp only [isReadable, Bool.and_eq_true, Bool.or_eq_true, beq_iff_eq] at hf
    rcases List.mem_cons.1 h with heq | hrest
    · obtain ⟨rfl, rfl⟩ := Prod.mk.inj heq
      exact hf.1.1.1.resolve_left hg
    · exact ihrest hf.1.2 hrest
  | _ => cases h

theorem mem_tags_of_alternatives {f : Form} {tag : String} {g : Form}
    (h : (tag, g) ∈ f.alternatives) : tag ∈ f.tags := by
  induction f with
  | either other f rest ihf ihrest =>
    rcases List.mem_cons.1 h with heq | hrest
    · cases heq
      exact List.mem_cons_self
    · exact List.mem_cons_of_mem _ (ihrest hrest)
  | _ => cases h

end Form

namespace Tree

/-- The value spells no tree of the form, for a flaw in it at a place that would be read. -/
inductive Flawed : Form → Json → Prop where
  | token {j : Json} (h : Json.Misspelled Token.needs j) : Flawed .token j
  | record {f : Form} {j : Json} (hf : f.isRecord = true) (h : Json.Misspelled f.needs j) :
      Flawed f j
  /-- A field that the record needs is left out of an array of all fields. -/
  | leftOut {k : NodeKind} {t : Tree k.form} {d : Nat} {items : List Json} {i : Nat} {field : Field}
      (h : t.SpellsFields d (items.map some)) (hfield : k.form.fields[i]? = some field)
      (hneed : field.need = .required) : Flawed (.node k) (.array (items.eraseIdx i))
  | field {f : Form} {i : Nat} {field : Field} {v j : Json} (hfield : f.fields[i]? = some field)
      (hv : Json.Gives f.fieldNames i v j) (h : Flawed field.form v) : Flawed f j
  | node {k : NodeKind} {j : Json} (h : Flawed k.form j) : Flawed (.node k) j
  | optional {f : Form} {j : Json} (h : Flawed f j) : Flawed (.optional f) j
  | item {f : Form} {x : Json} {xs : List Json} (hx : x ∈ xs) (h : Flawed f x) :
      Flawed (.many f) (.array xs)
  | content {f g : Form} {tag : String} {j : Json} (htag : (tag, g) ∈ f.alternatives)
      (h : Flawed g j) : Flawed f (.record [(tag, j)])

end Tree

theorem Token.decode?_misspelled {j : Json} (h : Json.Misspelled needs j) : decode? j = none := by
  refine Option.eq_none_iff_forall_ne_some.2 fun t ht => ?_
  rw [decode?, Option.bind_eq_bind, Option.bind_eq_some_iff] at ht
  obtain ⟨gs, hgs, ht⟩ := ht
  refine h.not_allowed hgs ?_
  split at ht
  · simp only [Option.bind_eq_bind, Option.bind_eq_some_iff] at ht
    obtain ⟨_, hlexeme, _, hoffset, -⟩ := ht
    exact .cons (Json.allows_of_required hlexeme) (.cons (Json.allows_of_required hoffset) .nil)
  · cases ht

namespace Tree

def TakesFields (inner : Decoder) (f : Form) (gs : List Json.Given) : Prop :=
  List.Forall₂ (fun field g => ∃ x, decodeField? inner field.omissible field.form g = some x)
    f.fields gs

theorem takesFields_of_decodeFields? {inner : Decoder} {f : Form} {gs : List Json.Given}
    {t : Tree f} (h : decodeFields? inner f gs = some t) : TakesFields inner f gs := by
  induction f generalizing gs with
  | done =>
    cases gs with
    | nil => exact .nil
    | cons g gs => cases h
  | slot name omissible f rest ihf ihrest =>
    cases gs with
    | nil => cases h
    | cons g gs =>
      rw [decodeFields?, Option.bind_eq_bind, Option.bind_eq_some_iff] at h
      obtain ⟨x, hx, h⟩ := h
      rw [Option.bind_eq_bind, Option.bind_eq_some_iff] at h
      obtain ⟨xs, hxs, -⟩ := h
      exact .cons ⟨x, hx⟩ (ihrest hxs)
  | _ => cases gs <;> cases h

theorem exists_takesFields {f : Form} (hf : f.isRecord = true) {limit : Nat} {j : Json} {t : Tree f}
    (h : decodeWithin? limit f j = some t) :
    ∃ limit' gs, j.fields? f.fieldNames = some gs ∧ TakesFields (decodeWithin? limit') f gs := by
  rw [decodeWithin?_body (by simp [hf]), decodeBody?, Form.isChoice_eq_false hf, decodeRecord?] at h
  cases limit with
  | zero => cases h
  | succ limit =>
    simp only [inside?, Bool.false_eq_true, if_false, Option.bind_eq_bind, Option.bind_some,
      Option.bind_eq_some_iff] at h
    obtain ⟨gs, hgs, h⟩ := h
    exact ⟨limit, gs, hgs, takesFields_of_decodeFields? h⟩

theorem allows_of_decodeField? {inner : Decoder} {field : Field} {g : Json.Given}
    {x : Tree field.form} (h : decodeField? inner field.omissible field.form g = some x) :
    field.need.allows g = true := by
  obtain ⟨name, form, omissible⟩ := field
  cases g with
  | value j => cases Field.need _ <;> rfl
  | unnamed =>
    cases omissible with
    | true => rfl
    | false => cases form <;> first | rfl | cases h
  | cutOff =>
    cases omissible with
    | true => rfl
    | false => cases form <;> cases h

theorem TakesFields.allowed {inner : Decoder} {f : Form} {gs : List Json.Given}
    (h : TakesFields inner f gs) :
    List.Forall₂ (fun field g => field.2.allows g = true) f.needs gs := by
  rw [Form.needs, List.forall₂_map_left_iff]
  exact h.imp fun _ _ ⟨_, hx⟩ => allows_of_decodeField? hx

end Tree

namespace Form

def isNested : Form → Bool
  | .many _ => true
  | .node k => k.form.isRecord
  | _ => false

def refusesNested : Form → Bool
  | .element => true
  | .optional f => f.refusesNested
  | _ => false

/-- No spelling of a tree of the second form is read as one of the first. -/
def excludes (f g : Form) : Bool :=
  f.refusesNested && g.isNested ||
    match f, g with
    | .either _ _ _, .many _ => true
    | .node k, .many item =>
      k.form.isRecord && item.isNested &&
        k.form.fields.any fun field => !field.omissible && field.form.refusesNested
    | _, _ => false

/-- The items of the rest are not all read if they stand one place earlier, where this field
should stand. -/
def tellsShift (f : Form) (omissible : Bool) : Form → Bool
  | .slot _ next g rest => f.excludes g || tellsShift g next rest
  | _ => !omissible

/-- An array tells if a field that is needed is left out of it. -/
def tellsGaps : Form → Bool
  | .slot name omissible f rest =>
    ((⟨name, f, omissible⟩ : Field).need != .required || tellsShift f omissible rest)
      && rest.tellsGaps
  | _ => true

end Form

theorem NodeKind.tellsGaps_form (k : NodeKind) : k.form.tellsGaps = true := by
  cases k <;> decide +kernel

namespace Tree

theorem Spells.not_scalar {f : Form} {t : Tree f} {d : Nat} {j : Json} (h : t.Spells d j)
    (hf : f.isNested = true) (s : Json.Scalar) : j ≠ .scalar s := by
  cases h with
  | nil => exact nofun
  | cons _ _ => exact nofun
  | node h =>
    obtain ⟨e, written, -, -, hj⟩ := h.exists_fields hf
    cases hj <;> exact nofun
  | _ => cases hf

theorem Spells.exists_items {f : Form} : {t : Tree (.many f)} → {d : Nat} → {j : Json} →
    t.Spells d j → ∃ js, j = .array js ∧ ∀ y ∈ js, ∃ (x : Tree f) (e : Nat), x.Spells e y
  | .nil, _, _, .nil => ⟨[], rfl, nofun⟩
  | .cons x _, _, _, .cons hx hxs => by
    obtain ⟨js, heq, hjs⟩ := hxs.exists_items
    cases heq
    exact ⟨_, rfl, List.forall_mem_cons.2 ⟨⟨x, _, hx⟩, hjs⟩⟩

theorem decodeWithin?_nested {f : Form} (hf : f.refusesNested = true) {j : Json}
    (hj : ∀ s, j ≠ .scalar s) (limit : Nat) : decodeWithin? limit f j = none := by
  induction f with
  | element =>
    cases j with
    | scalar s => exact absurd rfl (hj s)
    | _ => rw [decodeWithin?_eq]; rfl
  | optional f ih =>
    rw [decodeWithin?_optional (hj .null), ih hf]
    rfl
  | _ => cases hf

theorem decodeField?_cutOff (inner : Decoder) {omissible : Bool} (h : omissible = false)
    (f : Form) : decodeField? inner omissible f .cutOff = none := by
  subst h
  cases f <;> rfl

/-- A list is not read as a record that needs a field which none of the items can be. -/
theorem decodeWithin?_list {k : NodeKind} (hk : k.form.isRecord = true) {js : List Json}
    (hjs : ∀ y ∈ js, ∀ s, y ≠ .scalar s) {field : Field} (hfield : field ∈ k.form.fields)
    (homissible : field.omissible = false) (hrefuses : field.form.refusesNested = true)
    (limit : Nat) : decodeWithin? limit (.node k) (.array js) = none := by
  rw [decodeWithin?_node, Option.map_eq_none_iff]
  refine Option.eq_none_iff_forall_ne_some.2 fun t ht => ?_
  obtain ⟨limit', gs, hgs, htakes⟩ := exists_takesFields hk ht
  obtain ⟨i, hi⟩ := List.mem_iff_getElem?.1 hfield
  obtain ⟨g, hg, x, hx⟩ := forall₂_getElem? htakes hi
  have hlt : i < k.form.fieldNames.length := by
    rw [← Form.map_fst_needs, Form.needs, List.length_map, List.length_map]
    exact (List.getElem?_eq_some_iff.1 hi).1
  rw [(Json.fields?_array hgs).1] at hg
  cases hitem : js[i]? with
  | none =>
    rw [Json.getElem?_givenItems_cutOff (List.getElem?_eq_none_iff.1 hitem) hlt] at hg
    cases hg
    cases (decodeField?_cutOff _ homissible field.form).symm.trans hx
  | some y =>
    rw [Json.getElem?_givenItems_value hitem hlt] at hg
    cases hg
    have hnone := decodeWithin?_nested hrefuses (hjs y (List.mem_of_getElem? hitem)) limit'
    cases hnone.symm.trans hx

theorem Spells.excluded {f g : Form} (hfg : f.excludes g = true) {t : Tree g} {d : Nat} {j : Json}
    (h : t.Spells d j) (limit : Nat) : decodeWithin? limit f j = none := by
  unfold Form.excludes at hfg
  rw [Bool.or_eq_true, Bool.and_eq_true] at hfg
  rcases hfg with ⟨hrefuses, hnested⟩ | hfg
  · exact decodeWithin?_nested hrefuses (h.not_scalar hnested) limit
  · split at hfg
    · obtain ⟨js, rfl, -⟩ := h.exists_items
      rw [decodeWithin?_body rfl]
      rfl
    · simp only [Bool.and_eq_true, List.any_eq_true, Bool.not_eq_true'] at hfg
      obtain ⟨⟨hk, hnested⟩, field, hfield, homissible, hrefuses⟩ := hfg
      obtain ⟨js, rfl, hjs⟩ := h.exists_items
      refine decodeWithin?_list hk (fun y hy => ?_) hfield homissible hrefuses limit
      obtain ⟨x, e, hx⟩ := hjs y hy
      exact hx.not_scalar hnested
    · cases hfg

/-- Items that stand one place too early are not all taken. -/
theorem SpellsFields.not_shifted {name : String} {omissible : Bool} {f rest : Form}
    (hshift : f.tellsShift omissible rest = true) {xs : Tree rest} {d : Nat} {items : List Json}
    (h : xs.SpellsFields d (items.map some)) (limit : Nat) :
    ¬ TakesFields (decodeWithin? limit) (.slot name omissible f rest)
      (Json.givenItems (Form.slot name omissible f rest).fieldNames items) := by
  intro htakes
  induction xs generalizing name omissible f d items with
  | done =>
    cases items with
    | cons y ys => cases h
    | nil =>
      cases htakes with
      | cons htaken _ =>
        obtain ⟨x, hx⟩ := htaken
        have homissible : omissible = false := by simpa [Form.tellsShift] using hshift
        cases (decodeField?_cutOff _ homissible f).symm.trans hx
  | slot x xs ihx ihxs =>
    cases items with
    | nil => cases h
    | cons y ys =>
      cases h with
      | written hy hys =>
        cases htakes with
        | cons htaken hlater =>
          rw [Form.tellsShift, Bool.or_eq_true] at hshift
          rcases hshift with hexcludes | hrest
          · obtain ⟨x', hx'⟩ := htaken
            cases (hy.excluded hexcludes limit).symm.trans hx'
          · exact ihxs hrest hys hlater
  | _ => cases h

theorem SpellsFields.not_takesFields {f : Form} (hf : f.tellsGaps = true) {t : Tree f} {d : Nat}
    {items : List Json} (h : t.SpellsFields d (items.map some)) {i : Nat} {field : Field}
    (hfield : f.fields[i]? = some field) (hneed : field.need = .required) (limit : Nat) :
    ¬ TakesFields (decodeWithin? limit) f (Json.givenItems f.fieldNames (items.eraseIdx i)) := by
  intro htakes
  induction t generalizing d items i with
  | slot x xs ihx ihxs =>
    rw [Form.tellsGaps, Bool.and_eq_true] at hf
    cases items with
    | nil => cases h
    | cons y ys =>
      cases h with
      | written hy hys =>
        cases i with
        | zero =>
          cases hfield
          have hshift := hf.1
          rw [hneed] at hshift
          exact hys.not_shifted hshift limit htakes
        | succ i =>
          cases htakes with
          | cons _ hlater => exact ihxs hf.2 hys hfield hlater
  | done => cases hfield
  | _ => cases h

theorem Flawed.not_scalar {f : Form} {j : Json} (h : Flawed f j) (s : Json.Scalar) :
    j ≠ .scalar s := by
  induction h with
  | token h => cases h <;> exact nofun
  | record _ h => cases h <;> exact nofun
  | leftOut => exact nofun
  | field hfield hv h ih => cases hv <;> exact nofun
  | node _ ih => exact ih
  | optional _ ih => exact ih
  | item => exact nofun
  | content => exact nofun

theorem decodeTagged?_content {f g : Form} {tag : String} (hf : f.isReadable = true)
    (htag : (tag, g) ∈ f.alternatives) (inner : Decoder) {content : Json}
    (hcontent : content ≠ .null) (h : g ≠ .nothing → inner g content = none) :
    decodeTagged? inner tag content f = none := by
  induction f with
  | either other f rest ihf ihrest =>
    simp only [Form.isReadable, Bool.and_eq_true, Bool.not_eq_true', List.contains_eq_mem,
      decide_eq_false_iff_not] at hf
    rcases List.mem_cons.1 htag with heq | hrest
    · obtain ⟨rfl, rfl⟩ := Prod.mk.inj heq
      by_cases hnothing : g = .nothing
      · subst hnothing
        simp [decodeTagged?]
      · rw [decodeTagged?_here hnothing, h hnothing]
        rfl
    · have hne : other ≠ tag := fun heq => hf.2 (heq ▸ Form.mem_tags_of_alternatives hrest)
      rw [decodeTagged?_there hne, ihrest hf.1.2 hrest]
      rfl
  | _ => cases htag

/-- What is flawed is never read, however deep it may nest. -/
theorem Flawed.decodeWithin? {f : Form} {j : Json} (h : Flawed f j) (hf : f.isReadable = true)
    (limit : Nat) : decodeWithin? limit f j = none := by
  induction h generalizing limit with
  | token h =>
    rw [decodeWithin?_eq, decodeWith?, Token.decode?_misspelled h]
    cases inside? limit <;> rfl
  | @record f j hrecord h =>
    refine Option.eq_none_iff_forall_ne_some.2 fun t ht => ?_
    obtain ⟨limit', gs, hgs, htakes⟩ := exists_takesFields hrecord ht
    rw [← Form.map_fst_needs] at hgs
    exact h.not_allowed hgs htakes.allowed
  | @leftOut k t d items i field h hfield hneed =>
    rw [decodeWithin?_node, Option.map_eq_none_iff]
    refine Option.eq_none_iff_forall_ne_some.2 fun t ht => ?_
    obtain ⟨limit', gs, hgs, htakes⟩ :=
      exists_takesFields (Form.isRecord_of_mem_fields (List.mem_of_getElem? hfield)) ht
    rw [(Json.fields?_array hgs).1] at htakes
    exact h.not_takesFields k.tellsGaps_form hfield hneed limit' htakes
  | @field f i field v j hfield hv h ih =>
    have hmem := List.mem_of_getElem? hfield
    refine Option.eq_none_iff_forall_ne_some.2 fun t ht => ?_
    obtain ⟨limit', gs, hgs, htakes⟩ := exists_takesFields (Form.isRecord_of_mem_fields hmem) ht
    obtain ⟨g, hg, x, hx⟩ := forall₂_getElem? htakes hfield
    rw [hv.getElem? hgs] at hg
    cases hg
    cases (ih (Form.isReadable_of_mem_fields hf hmem) limit').symm.trans hx
  | @node k j h ih =>
    rw [decodeWithin?_node, ih k.isReadable_form.1]
    rfl
  | optional h ih =>
    simp only [Form.isReadable, Bool.and_eq_true] at hf
    rw [decodeWithin?_optional (h.not_scalar .null), ih hf.1]
    rfl
  | @item f x xs hx h ih =>
    cases limit with
    | zero => rfl
    | succ limit =>
      rw [Tree.decodeWithin?, decodeWith?]
      have hitems : xs.mapM (Tree.decodeWithin? limit f) = none := by
        refine Option.eq_none_iff_forall_ne_some.2 fun ts hts => ?_
        obtain ⟨t, -, ht⟩ := forall₂_mem (mapM_eq_some_iff.1 hts) hx
        cases (ih hf limit).symm.trans ht
      rw [Option.bind_eq_bind, Option.bind_some, hitems]
      rfl
  | @content f g tag j htag h ih =>
    have hchoice := Form.isChoice_of_mem_alternatives htag
    rw [decodeWithin?_body (by simp [hchoice]), decodeBody?, if_pos hchoice]
    cases limit with
    | zero => rfl
    | succ limit =>
      refine decodeTagged?_content hf htag (Tree.decodeWithin? limit) (h.not_scalar .null) ?_
      exact fun hg => ih (Form.isReadable_of_mem_alternatives hf htag hg) limit

end Tree

end UsageIndex
