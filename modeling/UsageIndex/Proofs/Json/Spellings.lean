import Mathlib.Data.List.Count
import UsageIndex.Proofs.Json.Records
import UsageIndex.Proofs.Listing

/-!
The spellings of a record. An object has its members in any order, with any others between them,
and need not name fields that may be left out; an array has all fields in their order. Either way
the same is said about each field. Where a known name is repeated, an array does not fit or a field
that must be there is missing, nothing is said that a reader could take.
-/

set_option autoImplicit false

namespace UsageIndex.Json

variable {α : Type}

def named : List String → List (Option Json) → List (String × Json)
  | name :: names, some v :: written => (name, v) :: named names written
  | _ :: names, none :: written => named names written
  | _, _ => []

/-- The value is a record with these fields, some of which may be left out. Members of an object
that are no fields do not matter, and may share their names. -/
inductive RecordOf (names : List String) (written : List (Option Json)) : Json → Prop where
  | object {ms others : List (String × Json)} (hlength : written.length = names.length)
      (hms : ms.Perm (named names written ++ others)) (hothers : ∀ m ∈ others, m.1 ∉ names) :
      RecordOf names written (record ms)
  | array {xs : List Json} (hlength : written.length = names.length)
      (hwritten : written = xs.map some) : RecordOf names written (.array xs)

theorem named_cons (name : String) (names : List String) (w : Option Json)
    (written : List (Option Json)) : named (name :: names) (w :: written) =
      (w.map fun v => (name, v)).toList ++ named names written := by
  cases w <;> rfl

theorem recordOf_named {names : List String} {written : List (Option Json)}
    (hlength : written.length = names.length) :
    RecordOf names written (record (named names written)) :=
  .object hlength (List.Perm.of_eq (List.append_nil _).symm) (by simp)

theorem recordOf_record {names : List String} {ms : List (String × Json)}
    (hnames : ms.map Prod.fst = names) : RecordOf names (ms.map fun m => some m.2) (record ms) := by
  subst hnames
  have hnamed : named (ms.map Prod.fst) (ms.map fun m => some m.2) = ms := by
    induction ms with
    | nil => rfl
    | cons m ms ih => simp [named, ih]
  have hrecord := @recordOf_named (ms.map Prod.fst) (ms.map fun m => some m.2) (by simp)
  rwa [hnamed] at hrecord

theorem map_fst_named_sublist (names : List String) (written : List (Option Json)) :
    ((named names written).map Prod.fst).Sublist names := by
  fun_induction named names written with
  | case1 name names v written ih => exact ih.cons_cons name
  | case2 name names written ih => exact ih.cons name
  | case3 => exact List.nil_sublist _

theorem lookup_eq_none {name : String} {ms : List (String × Json)} (h : name ∉ ms.map Prod.fst) :
    ms.lookup name = none := by
  refine List.lookup_eq_none_iff.2 fun m hm => ?_
  have hne : name ≠ m.1 := fun heq => h (heq ▸ List.mem_map_of_mem hm)
  simpa using hne

/-- What a name stands for does not depend on the order of members, unless it is repeated. -/
theorem lookup_perm {ms ms' : List (String × Json)} (h : ms.Perm ms') {name : String}
    (hcount : (ms.map Prod.fst).count name ≤ 1) : ms.lookup name = ms'.lookup name := by
  induction h with
  | nil => rfl
  | cons m _ ih =>
    rw [List.map_cons, List.count_cons] at hcount
    rw [List.lookup_cons, List.lookup_cons, ih (Nat.le_trans (Nat.le_add_right _ _) hcount)]
  | swap m m' ms =>
    obtain ⟨first, v⟩ := m
    obtain ⟨second, v'⟩ := m'
    by_cases hfirst : name = first
    · have hsecond : (name == second) = false := by
        rw [beq_eq_false_iff_ne]
        rintro rfl
        simp [← hfirst] at hcount
      simp [List.lookup_cons, hfirst, hfirst ▸ hsecond]
    · have hne : (name == first) = false := by simpa using hfirst
      simp only [List.lookup_cons, hne]
  | trans hfirst _ ihfirst ihsecond =>
    rw [ihfirst hcount, ihsecond ((hfirst.map _).count_eq name ▸ hcount)]

theorem map_lookup_named {names : List String} {written : List (Option Json)}
    {others : List (String × Json)} (hnodup : names.Nodup)
    (hlength : written.length = names.length) (hothers : ∀ m ∈ others, m.1 ∉ names) :
    names.map (fun name => (named names written ++ others).lookup name) = written := by
  induction names generalizing written with
  | nil => exact (List.length_eq_zero_iff.1 hlength).symm
  | cons name names ih =>
    obtain ⟨w, written, rfl⟩ := List.exists_cons_of_length_eq_add_one hlength
    obtain ⟨hname, hnames⟩ := List.nodup_cons.1 hnodup
    have hrest := ih hnames (Nat.succ.inj hlength)
      fun m hm hmem => hothers m hm (List.mem_cons_of_mem name hmem)
    rw [List.map_cons]
    cases w with
    | none =>
      have hmissing : name ∉ (named names written ++ others).map Prod.fst := by
        rw [List.map_append, List.mem_append]
        rintro (hmem | hmem)
        · exact hname ((map_fst_named_sublist names written).subset hmem)
        · obtain ⟨m, hm, heq⟩ := List.mem_map.1 hmem
          exact hothers m hm (heq ▸ List.mem_cons_self)
      rw [named, lookup_eq_none hmissing, hrest]
    | some v =>
      have hskip : ∀ other ∈ names,
          (named (name :: names) (some v :: written) ++ others).lookup other =
            (named names written ++ others).lookup other := by
        intro other hother
        have hne : (other == name) = false := by
          simpa using fun heq : other = name => hname (heq ▸ hother)
        rw [named, List.cons_append, List.lookup_cons, hne]
      rw [List.map_congr_left hskip, hrest]
      simp [named]

theorem givenItems_of_length {names : List String} {xs : List Json}
    (h : xs.length = names.length) : givenItems names xs = xs.map .value := by
  induction names generalizing xs with
  | nil => rw [List.length_eq_zero_iff.1 h]; rfl
  | cons name names ih =>
    obtain ⟨x, xs, rfl⟩ := List.exists_cons_of_length_eq_add_one h
    rw [givenItems, ih (Nat.succ.inj h), List.map_cons]

/-- Every spelling of a record says the same about its fields. -/
theorem RecordOf.fields? {names : List String} {written : List (Option Json)} {j : Json}
    (h : RecordOf names written j) (hnodup : names.Nodup) :
    j.fields? names = some (written.map .ofOption) := by
  cases h with
  | @object ms others hlength hms hothers =>
    have hcount : ∀ name ∈ names, (ms.map Prod.fst).count name ≤ 1 := by
      intro name hname
      have hother : (others.map Prod.fst).count name = 0 := by
        refine List.count_eq_zero.2 fun hmem => ?_
        obtain ⟨m, hm, heq⟩ := List.mem_map.1 hmem
        exact hothers m hm (heq ▸ hname)
      rw [(hms.map Prod.fst).count_eq, List.map_append, List.count_append, hother, Nat.add_zero]
      exact Nat.le_trans ((map_fst_named_sublist names written).count_le name)
        (List.nodup_iff_count.1 hnodup name)
    have hlookup : names.map (fun name => ms.lookup name) = written := by
      rw [← map_lookup_named hnodup hlength hothers]
      exact List.map_congr_left fun name hname => lookup_perm hms (hcount name hname)
    have hall : names.all (fun name => decide ((ms.map Prod.fst).count name ≤ 1)) = true := by
      simpa using hcount
    simp only [record, Json.fields?, memberNames?_record, givenMember_record, Option.bind_eq_bind,
      Option.bind_some, hall, if_true]
    rw [← hlookup, List.map_map]
    rfl
  | @array xs hlength hwritten =>
    subst hwritten
    rw [List.length_map] at hlength
    rw [Json.fields?, if_pos (Nat.le_of_eq hlength), givenItems_of_length hlength, List.map_map]
    rfl

theorem RecordOf.ne_scalar {names : List String} {written : List (Option Json)} {j : Json}
    (h : RecordOf names written j) (s : Scalar) : j ≠ .scalar s := by
  rintro rfl
  cases h

theorem mem_named {names : List String} {written : List (Option Json)} {v : Json}
    (h : some v ∈ written) (hlength : written.length = names.length) :
    ∃ name, (name, v) ∈ named names written := by
  fun_induction named names written with
  | case1 name names w written ih =>
    rcases List.mem_cons.1 h with heq | hrest
    · cases heq
      exact ⟨name, List.mem_cons_self⟩
    · obtain ⟨other, hother⟩ := ih hrest (Nat.succ.inj hlength)
      exact ⟨other, List.mem_cons_of_mem _ hother⟩
  | case2 name names written ih =>
    exact ih ((List.mem_cons.1 h).resolve_left nofun) (Nat.succ.inj hlength)
  | case3 names written hsome hnone =>
    cases written with
    | nil => cases h
    | cons w written =>
      obtain ⟨name, names, rfl⟩ := List.exists_cons_of_length_eq_add_one hlength.symm
      cases w with
      | none => exact (hnone name names written rfl rfl).elim
      | some w => exact (hsome name names w written rfl rfl).elim

theorem RecordOf.depth_lt {names : List String} {written : List (Option Json)} {j v : Json}
    (h : RecordOf names written j) (hv : some v ∈ written) : v.depth < j.depth := by
  cases h with
  | @object ms others hlength hms hothers =>
    obtain ⟨name, hname⟩ := mem_named hv hlength
    have hmem : (name, v) ∈ ms := hms.mem_iff.2 (List.mem_append_left _ hname)
    have hdepth : v.depth ≤ depthMembers (ms.map fun m => (some m.1, m.2)) :=
      (depth_record_le_iff ms _).1 (Nat.le_refl _) _ hmem
    exact Nat.lt_add_one_of_le hdepth
  | @array xs hlength hwritten =>
    subst hwritten
    obtain ⟨x, hx, heq⟩ := List.mem_map.1 hv
    cases heq
    exact Nat.lt_add_one_of_le ((depthItems_le_iff _ _).1 (Nat.le_refl _) _ hx)

section Fields

variable (spells : α → Json → Prop) (decode : Json → Option α)

inductive SpellsRequired (a : α) : Option Json → Prop where
  | written {j : Json} (h : spells a j) : SpellsRequired a (some j)

/-- A field that is left out or null where there is nothing to write. -/
inductive SpellsOptional : Option α → Option Json → Prop where
  | written {a : α} {j : Json} (h : spells a j) : SpellsOptional (some a) (some j)
  | null : SpellsOptional none (some .null)
  | leftOut : SpellsOptional none none

inductive SpellsOrDefault (default : α) : α → Option Json → Prop where
  | written {a : α} {j : Json} (h : spells a j) : SpellsOrDefault default a (some j)
  | leftOut : SpellsOrDefault default default none

def Exactly (encode : α → Json) (a : α) (j : Json) : Prop := j = encode a

def SpellsList (as : List α) (j : Json) : Prop :=
  ∃ js, j = .array js ∧ List.Forall₂ spells as js

def Reads : Prop := ∀ a j, spells a j → decode j = some a

end Fields

/-- The value is a record in which each field is written by its own rule. -/
def SpellsRecord (names : List String) (rules : List (Option Json → Prop)) (j : Json) : Prop :=
  ∃ written, RecordOf names written j ∧ List.Forall₂ (fun rule w => rule w) rules written

section Reads

variable {spells : α → Json → Prop} {decode : Json → Option α}

theorem Reads.required (h : Reads spells decode) {a : α} {w : Option Json}
    (hw : SpellsRequired spells a w) : (Given.ofOption w).required decode = some a := by
  cases hw with
  | written hj => exact h a _ hj

theorem Reads.optional (h : Reads spells decode) (hnull : ∀ a, ¬ spells a .null) {o : Option α}
    {w : Option Json} (hw : SpellsOptional spells o w) :
    (Given.ofOption w).optional decode = some o := by
  cases hw with
  | @written a j hj =>
    have hne : j ≠ .null := fun heq => hnull a (heq ▸ hj)
    rw [Given.ofOption, optional_value decode hne, h a j hj]
    rfl
  | null => rfl
  | leftOut => rfl

theorem Reads.orDefault (h : Reads spells decode) {default a : α} {w : Option Json}
    (hw : SpellsOrDefault spells default a w) :
    (Given.ofOption w).orDefault default decode = some a := by
  cases hw with
  | written hj => exact h a _ hj
  | leftOut => rfl

theorem reads_exactly {encode : α → Json} (h : ∀ a, decode (encode a) = some a) :
    Reads (Exactly encode) decode := by
  rintro a _ rfl
  exact h a

theorem Reads.list (h : Reads spells decode) : Reads (SpellsList spells) (list? decode) := by
  rintro as j ⟨js, rfl, hjs⟩
  induction hjs with
  | nil => rfl
  | @cons a j as js hj _ ih =>
    rw [list?] at ih ⊢
    simp [h a j hj, ih]

theorem spellsList_ofList {encode : α → Json} (h : ∀ a, spells a (encode a)) (as : List α) :
    SpellsList spells as (ofList encode as) :=
  ⟨as.map encode, rfl, List.forall₂_map_right_iff.2 (List.forall₂_same.2 fun a _ => h a)⟩

theorem spellsList_exactly (encode : α → Json) (as : List α) :
    SpellsList (Exactly encode) as (ofList encode as) := by
  have hself : ∀ a, Exactly encode a (encode a) := fun _ => rfl
  exact spellsList_ofList hself as

theorem spellsOptional_map {encode : α → Json} (o : Option α) :
    SpellsOptional (Exactly encode) o (o.map encode) := by
  cases o with
  | none => exact .leftOut
  | some a => exact .written rfl

theorem list?_eq_none {x : Json} {xs : List Json} (hx : x ∈ xs) (h : decode x = none) :
    list? decode (.array xs) = none := by
  refine Option.eq_none_iff_forall_ne_some.2 fun as has => ?_
  obtain ⟨a, -, ha⟩ := forall₂_mem (mapM_eq_some_iff.1 has) hx
  cases h.symm.trans ha

end Reads

inductive Need where
  /-- The field must be written. -/
  | required
  /-- The field may be left out of an object. -/
  | optional
  /-- The field may be left out, also at the end of an array. -/
  | omissible
  deriving DecidableEq, Repr

def Need.allows : Need → Given → Bool
  | _, .value _ => true
  | .required, _ => false
  | .optional, .unnamed => true
  | .optional, .cutOff => false
  | .omissible, _ => true

/-- What can be wrong with a record, whatever its fields hold. -/
inductive Misspelled (fields : List (String × Need)) : Json → Prop where
  | repeated {ms : List (Text × Json)} {name : String} (hname : name ∈ fields.map Prod.fst)
      (h : 2 ≤ (ms.map Prod.fst).count (some name)) : Misspelled fields (.object ms)
  | missing {ms : List (Text × Json)} {name : String} (hname : (name, .required) ∈ fields)
      (h : some name ∉ ms.map Prod.fst) : Misspelled fields (.object ms)
  | overlong {xs : List Json} (h : fields.length < xs.length) : Misspelled fields (.array xs)
  | short {xs : List Json} {i : Nat} {name : String} {need : Need}
      (hfield : fields[i]? = some (name, need)) (hneed : need ≠ .omissible) (h : xs.length ≤ i) :
      Misspelled fields (.array xs)

inductive Gives (names : List String) (i : Nat) (v : Json) : Json → Prop where
  | member {ms : List (Text × Json)} {name : String} (hname : names[i]? = some name)
      (h : (some name, v) ∈ ms) : Gives names i v (.object ms)
  | item {xs : List Json} (h : xs[i]? = some v) : Gives names i v (.array xs)

theorem map_fst_of_memberNames? {ms : List (Text × Json)} {written : List String}
    (h : memberNames? ms = some written) : ms.map Prod.fst = written.map some := by
  induction ms generalizing written with
  | nil =>
    cases h
    rfl
  | cons m ms ih =>
    obtain ⟨_ | name, v⟩ := m
    · cases h
    · obtain ⟨rest, hrest, rfl⟩ := Option.map_eq_some_iff.1 h
      simp [ih hrest]

theorem member?_eq_none {name : String} {ms : List (Text × Json)}
    (h : some name ∉ ms.map Prod.fst) : member? name ms = none := by
  induction ms with
  | nil => rfl
  | cons m ms ih =>
    rw [List.map_cons, List.mem_cons, not_or] at h
    rw [member?, if_neg (Ne.symm h.1), ih h.2]

theorem member?_of_mem {name : String} {v : Json} {ms : List (Text × Json)}
    (h : (some name, v) ∈ ms) (hcount : (ms.map Prod.fst).count (some name) ≤ 1) :
    member? name ms = some v := by
  induction ms with
  | nil => cases h
  | cons m ms ih =>
    obtain ⟨other, w⟩ := m
    rw [List.map_cons, List.count_cons] at hcount
    rcases List.mem_cons.1 h with heq | hrest
    · cases heq
      rw [member?, if_pos rfl]
    · have hmem : some name ∈ ms.map Prod.fst := List.mem_map_of_mem hrest
      have hone := List.count_pos_iff.2 hmem
      have hne : other ≠ some name := by
        rintro rfl
        simp only [beq_self_eq_true, if_true] at hcount
        omega
      rw [member?, if_neg hne, ih hrest (by omega)]

/-- What is said about the fields of an object is said by its members, each of another name. -/
theorem fields?_object {names : List String} {ms : List (Text × Json)} {gs : List Given}
    (h : (Json.object ms).fields? names = some gs) :
    gs = names.map (fun name => givenMember name ms) ∧
      ∀ name ∈ names, (ms.map Prod.fst).count (some name) ≤ 1 := by
  rw [Json.fields?, Option.bind_eq_bind, Option.bind_eq_some_iff] at h
  obtain ⟨written, hwritten, h⟩ := h
  split at h
  · rename_i hall
    refine ⟨(Option.some.inj h).symm, fun name hname => ?_⟩
    have hcount := List.all_eq_true.1 hall name hname
    rw [map_fst_of_memberNames? hwritten,
      List.count_map_of_injective written some (Option.some_injective String)]
    simpa using hcount
  · cases h

theorem fields?_array {names : List String} {xs : List Json} {gs : List Given}
    (h : (Json.array xs).fields? names = some gs) :
    gs = givenItems names xs ∧ xs.length ≤ names.length := by
  rw [Json.fields?] at h
  split at h
  · rename_i hlength
    exact ⟨(Option.some.inj h).symm, hlength⟩
  · cases h

theorem getElem?_givenItems_value {names : List String} {xs : List Json} {i : Nat} {v : Json}
    (hv : xs[i]? = some v) (hi : i < names.length) :
    (givenItems names xs)[i]? = some (.value v) := by
  induction names generalizing xs i with
  | nil => cases hi
  | cons name names ih =>
    cases xs with
    | nil => cases hv
    | cons x xs =>
      cases i with
      | zero =>
        cases hv
        rfl
      | succ i => exact ih hv (Nat.lt_of_succ_lt_succ hi)

theorem getElem?_givenItems_cutOff {names : List String} {xs : List Json} {i : Nat}
    (hxs : xs.length ≤ i) (hi : i < names.length) : (givenItems names xs)[i]? = some .cutOff := by
  induction names generalizing xs i with
  | nil => cases hi
  | cons name names ih =>
    cases xs with
    | nil =>
      cases i with
      | zero => rfl
      | succ i => exact ih (Nat.zero_le i) (Nat.lt_of_succ_lt_succ hi)
    | cons x xs =>
      cases i with
      | zero => cases hxs
      | succ i => exact ih (Nat.le_of_succ_le_succ hxs) (Nat.lt_of_succ_lt_succ hi)

/-- No reader can take what a misspelled record says. -/
theorem Misspelled.not_allowed {fields : List (String × Need)} {j : Json} {gs : List Given}
    (h : Misspelled fields j) (hgs : j.fields? (fields.map Prod.fst) = some gs) :
    ¬ List.Forall₂ (fun field g => field.2.allows g = true) fields gs := by
  intro hallowed
  cases h with
  | @repeated ms name hname htwice =>
    have hcount := (fields?_object hgs).2 name hname
    omega
  | @missing ms name hname hmissing =>
    obtain ⟨i, hi⟩ := List.mem_iff_getElem?.1 hname
    obtain ⟨g, hg, hallows⟩ := forall₂_getElem? hallowed hi
    have hgiven : g = givenMember name ms := by
      rw [(fields?_object hgs).1, List.map_map, List.getElem?_map, hi] at hg
      exact (Option.some.inj hg).symm
    rw [hgiven, givenMember, member?_eq_none hmissing] at hallows
    cases hallows
  | @overlong xs hlong =>
    have hlength := (fields?_array hgs).2
    rw [List.length_map] at hlength
    omega
  | @short xs i name need hfield hneed hshort =>
    obtain ⟨g, hg, hallows⟩ := forall₂_getElem? hallowed hfield
    have hi : i < (fields.map Prod.fst).length := by
      rw [List.length_map]
      exact (List.getElem?_eq_some_iff.1 hfield).1
    rw [(fields?_array hgs).1, getElem?_givenItems_cutOff hshort hi] at hg
    cases hg
    cases need with
    | omissible => exact hneed rfl
    | _ => cases hallows

theorem Gives.getElem? {names : List String} {i : Nat} {v j : Json} {gs : List Given}
    (h : Gives names i v j) (hgs : j.fields? names = some gs) : gs[i]? = some (.value v) := by
  cases h with
  | @member ms name hname hmem =>
    obtain ⟨rfl, hcount⟩ := fields?_object hgs
    have hvalue := member?_of_mem hmem (hcount name (List.mem_of_getElem? hname))
    rw [List.getElem?_map, hname, Option.map_some, givenMember, hvalue]
  | @item xs hv =>
    obtain ⟨rfl, hlength⟩ := fields?_array hgs
    have hi := (List.getElem?_eq_some_iff.1 hv).1
    exact getElem?_givenItems_value hv (Nat.lt_of_lt_of_le hi hlength)

theorem allows_of_required {decode : Json → Option α} {g : Given} {a : α}
    (h : g.required decode = some a) : Need.required.allows g = true := by
  cases g with
  | value j => rfl
  | _ => cases h

theorem allows_of_optional {decode : Json → Option α} {g : Given} {o : Option α}
    (h : g.optional decode = some o) : Need.optional.allows g = true := by
  cases g with
  | cutOff => cases h
  | _ => rfl

theorem allows_omissible (g : Given) : Need.omissible.allows g = true := by
  cases g <;> rfl

end UsageIndex.Json
