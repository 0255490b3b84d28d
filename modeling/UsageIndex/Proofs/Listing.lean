import Mathlib.Data.List.Find
import Mathlib.Data.List.Forall2
import Mathlib.Data.List.Nodup
import Mathlib.Data.List.NodupEquivFin
import Mathlib.Data.List.Perm.Subperm
import Mathlib.Data.List.Sort
import Mathlib.Tactic.Choose

/-!
Facts about numbered lists: a list whose items go back to different words can be numbered with
words, the first mentions of a list can be collected piece by piece, and sorting by a key keeps
the order of items with the same key.
-/

set_option autoImplicit false

namespace UsageIndex

/-- A list without repetitions whose items go back to different words below a bound is no longer
than the bound. -/
theorem length_le_of_sources_lt {α : Type} {l : List α} (hl : l.Nodup)
    (source : α → UInt32 → Prop) {n : Nat} (hs : ∀ a ∈ l, ∃ w, source a w ∧ w.toNat < n)
    (hinj : ∀ a ∈ l, ∀ b ∈ l, ∀ w, source a w → source b w → a = b) : l.length ≤ n := by
  -- the words of the items are as many as the items, and below the bound
  choose! word hword hlt using hs
  have hnodup : (l.map fun a => (word a).toNat).Nodup := by
    refine hl.map_on ?_
    intro a ha b hb he
    have hwords : word a = word b := UInt32.toNat_inj.1 he
    exact hinj a ha b hb (word a) (hword a ha) (hwords ▸ hword b hb)
  have hsub : l.map (fun a => (word a).toNat) ⊆ List.range n := by
    intro k hk
    obtain ⟨a, ha, rfl⟩ := List.mem_map.1 hk
    exact List.mem_range.2 (hlt a ha)
  have hle := (hnodup.subperm hsub).length_le
  rwa [List.length_map, List.length_range] at hle

theorem toNat_ofNat_of_lt {n : Nat} (h : n < UInt32.size) : (UInt32.ofNat n).toNat = n :=
  UInt32.toNat_ofNat_of_lt' h

theorem getElem?_of_idxOf? {α : Type} [BEq α] [LawfulBEq α] {l : List α} {a : α} {i : Nat}
    (h : l.idxOf? a = some i) : l[i]? = some a := by
  rw [List.idxOf?, List.findIdx?_eq_some_iff_getElem] at h
  obtain ⟨hlt, he, -⟩ := h
  rw [List.getElem?_eq_getElem hlt, beq_iff_eq.1 he]

theorem idxOf_eq_of_getElem? {α : Type} [BEq α] [LawfulBEq α] {l : List α} (hl : l.Nodup)
    {i : Nat} {a : α} (h : l[i]? = some a) : l.idxOf a = i := by
  obtain ⟨hlt, rfl⟩ := List.getElem?_eq_some_iff.1 h
  exact hl.idxOf_getElem i hlt

theorem getElem?_eq_some_iff_idxOf {α : Type} [BEq α] [LawfulBEq α] {l : List α} (hl : l.Nodup)
    {i : Nat} {a : α} : l[i]? = some a ↔ a ∈ l ∧ l.idxOf a = i := by
  constructor
  · intro h
    exact ⟨List.mem_of_getElem? h, idxOf_eq_of_getElem? hl h⟩
  · rintro ⟨ha, rfl⟩
    exact List.getElem?_idxOf ha

theorem idxOf?_of_getElem? {α : Type} [BEq α] [LawfulBEq α] {l : List α} (h : l.Nodup) {i : Nat}
    {a : α} (ha : l[i]? = some a) : l.idxOf? a = some i := by
  obtain ⟨j, hj⟩ := Option.isSome_iff_exists.1 (List.isSome_idxOf?.2 (List.mem_of_getElem? ha))
  have hindex := idxOf_eq_of_getElem? h (getElem?_of_idxOf? hj)
  rw [hj, ← hindex, idxOf_eq_of_getElem? h ha]

theorem idxOf?_map {α β : Type} [BEq α] [LawfulBEq α] [BEq β] [LawfulBEq β] {f : α → β}
    (hf : Function.Injective f) (l : List α) (a : α) : (l.map f).idxOf? (f a) = l.idxOf? a := by
  have htest : (· == f a) ∘ f = (· == a) := by
    funext b
    exact Bool.eq_iff_iff.2 (by simp [hf.eq_iff])
  rw [List.idxOf?, List.findIdx?_map, htest, List.idxOf?]

theorem toNat_eq_of_getElem? {α : Type} {l : List α} (hl : l.Nodup) {id : UInt32} {i : Nat} {a : α}
    (hi : l[i]? = some a) (hid : l[id.toNat]? = some a) : id.toNat = i :=
  (List.getElem?_inj (List.getElem?_eq_some_iff.1 hid).1 hl).1 (hid.trans hi.symm)

/-- Two lists of the same items, each there once, differ by a change of positions. -/
theorem exists_renumbering {α : Type} [DecidableEq α] {l l' : List α} (hl : l.Nodup)
    (h : l.Perm l') {n n' : Nat} (hn : n = l.length) (hn' : n' = l'.length) :
    ∃ f : Fin n ≃ Fin n', ∀ (i : Fin n) (a : α), l[i.val]? = some a → l'[(f i).val]? = some a := by
  subst hn hn'
  have hl' : l'.Nodup := h.nodup_iff.1 hl
  let same : { a // a ∈ l } ≃ { a // a ∈ l' } := Equiv.subtypeEquivRight fun a => h.mem_iff
  refine ⟨(hl.getEquiv l).trans (same.trans (hl'.getEquiv l').symm), ?_⟩
  intro i a ha
  obtain ⟨hi, rfl⟩ := List.getElem?_eq_some_iff.1 ha
  exact List.getElem?_idxOf (h.mem_iff.1 (List.getElem_mem hi))

/-- The positions of a sublist go to greater positions the greater they are. -/
theorem exists_strictMono_of_sublist {α : Type} {l l' : List α} (h : l.Sublist l') {n n' : Nat}
    (hn : n = l.length) (hn' : n' = l'.length) :
    ∃ f : Fin n → Fin n', StrictMono f ∧
      ∀ (i : Fin n) (a : α), l[i.val]? = some a → l'[(f i).val]? = some a := by
  subst hn hn'
  obtain ⟨f, hf⟩ := List.sublist_iff_exists_fin_orderEmbedding_get_eq.1 h
  refine ⟨f, f.strictMono, ?_⟩
  intro i a ha
  obtain ⟨hi, rfl⟩ := List.getElem?_eq_some_iff.1 ha
  exact List.getElem?_eq_some_iff.2 ⟨(f i).isLt, (hf i).symm⟩

theorem getElem?_mono {α : Type} {l l' : List α} (h : l <+: l') {i : Nat} {a : α}
    (ha : l[i]? = some a) : l'[i]? = some a := by
  obtain ⟨rest, rfl⟩ := h
  obtain ⟨hlt, -⟩ := List.getElem?_eq_some_iff.1 ha
  rw [List.getElem?_append_left hlt, ha]

theorem append_subset_append {α : Type} {a b c d : List α} (hac : a ⊆ c) (hbd : b ⊆ d) :
    a ++ b ⊆ c ++ d :=
  List.append_subset.2 ⟨List.Subset.trans hac (List.subset_append_left _ _),
    List.Subset.trans hbd (List.subset_append_right _ _)⟩

theorem mapM_eq_some_iff {α β : Type} {f : α → Option β} {l : List α} {l' : List β} :
    l.mapM f = some l' ↔ List.Forall₂ (fun a b => f a = some b) l l' := by
  induction l generalizing l' with
  | nil => cases l' <;> simp
  | cons a l ih =>
    cases hb : f a with
    | none => cases l' <;> simp [hb]
    | some b =>
      cases hr : l.mapM f with
      | none =>
        have hnone : ∀ rest, ¬ List.Forall₂ (fun a b => f a = some b) l rest := by
          intro rest h
          rw [← ih, hr] at h
          cases h
        cases l' <;> simp [hb, hr, hnone]
      | some rest =>
        cases l' with
        | nil => simp [hb, hr]
        | cons b' rest' => simp [hb, hr, ← ih]

theorem mapM_eq_ok {ε α β : Type} {f : α → Except ε β} {l : List α} {l' : List β}
    (h : List.Forall₂ (fun a b => f a = .ok b) l l') : l.mapM f = .ok l' := by
  induction h with
  | nil => rfl
  | cons hab _ ih => rw [List.mapM_cons, hab, ih]; rfl

theorem forall₂_of_mapM_eq_ok {ε α β : Type} {f : α → Except ε β} {l : List α} {l' : List β}
    (h : l.mapM f = .ok l') : List.Forall₂ (fun a b => f a = .ok b) l l' := by
  induction l generalizing l' with
  | nil =>
    cases h
    exact .nil
  | cons a l ih =>
    rw [List.mapM_cons] at h
    cases hb : f a with
    | error e =>
      rw [hb] at h
      cases h
    | ok b =>
      cases hrest : l.mapM f with
      | error e =>
        rw [hb, hrest] at h
        cases h
      | ok rest =>
        rw [hb, hrest] at h
        cases h
        exact .cons hb (ih hrest)

theorem mapM_eq_error_iff {ε α β : Type} {f : α → Except ε β} {l : List α} {e : ε} :
    l.mapM f = .error e ↔ ∃ before a after, l = before ++ a :: after ∧
      (∀ b ∈ before, ∃ c, f b = .ok c) ∧ f a = .error e := by
  constructor
  · intro h
    induction l with
    | nil => cases h
    | cons a l ih =>
      rw [List.mapM_cons] at h
      cases ha : f a with
      | error e' =>
        rw [ha] at h
        cases h
        exact ⟨[], a, l, rfl, by simp, ha⟩
      | ok b =>
        cases hrest : l.mapM f with
        | ok rest =>
          rw [ha, hrest] at h
          cases h
        | error e' =>
          rw [ha, hrest] at h
          cases h
          obtain ⟨before, a', after, rfl, hbefore, ha'⟩ := ih hrest
          exact ⟨a :: before, a', after, rfl, List.forall_mem_cons.2 ⟨⟨b, ha⟩, hbefore⟩, ha'⟩
  · rintro ⟨before, a, after, rfl, hbefore, ha⟩
    induction before with
    | nil => rw [List.nil_append, List.mapM_cons, ha]; rfl
    | cons b before ih =>
      obtain ⟨⟨c, hc⟩, hbefore⟩ := List.forall_mem_cons.1 hbefore
      rw [List.cons_append, List.mapM_cons, hc, ih hbefore]
      rfl

theorem forall₂_zipWith_map {α β γ δ : Type} {R : α → δ → Prop} {f : β → γ → δ} {g : α → γ}
    {l : List α} {l' : List β} (h : List.Forall₂ (fun a b => R a (f b (g a))) l l') :
    List.Forall₂ R l (List.zipWith f l' (l.map g)) := by
  induction h with
  | nil => exact .nil
  | cons hab _ ih => exact .cons hab ih

theorem forall₂_getElem? {α β : Type} {R : α → β → Prop} {l : List α} {l' : List β}
    (h : List.Forall₂ R l l') {i : Nat} {a : α} (ha : l[i]? = some a) :
    ∃ b, l'[i]? = some b ∧ R a b := by
  induction h generalizing i with
  | nil => simp at ha
  | cons hab _ ih =>
    cases i with
    | zero =>
      obtain rfl : _ = a := by simpa using ha
      exact ⟨_, rfl, hab⟩
    | succ i => exact ih (by simpa using ha)

theorem forall₂_mem {α β : Type} {R : α → β → Prop} {l : List α} {l' : List β}
    (h : List.Forall₂ R l l') {a : α} (ha : a ∈ l) : ∃ b ∈ l', R a b := by
  obtain ⟨i, hi⟩ := List.mem_iff_getElem?.1 ha
  obtain ⟨b, hb, hab⟩ := forall₂_getElem? h hi
  exact ⟨b, List.mem_of_getElem? hb, hab⟩

section FirstMentions

variable {α : Type} [BEq α] [LawfulBEq α]

theorem nodup_eraseDups (l : List α) : l.eraseDups.Nodup := by
  induction hn : l.length using Nat.strongRecOn generalizing l with
  | ind n ih =>
    cases l with
    | nil => exact List.nodup_nil
    | cons a l =>
      rw [List.eraseDups_cons, List.nodup_cons]
      refine ⟨by simp, ih _ ?_ _ rfl⟩
      have hle := List.length_filter_le (fun b => !b == a) l
      rw [List.length_cons] at hn
      omega

theorem eraseDups_eq_self {l : List α} (hl : l.Nodup) : l.eraseDups = l := by
  induction l with
  | nil => rfl
  | cons a l ih =>
    obtain ⟨ha, hl⟩ := List.nodup_cons.1 hl
    have hkeep : l.filter (fun b => !b == a) = l := by
      rw [List.filter_eq_self]
      intro b hb
      simpa using fun he : b = a => ha (he ▸ hb)
    rw [List.eraseDups_cons, hkeep, ih hl]

theorem eraseDups_append_of_mem {l : List α} (hl : l.Nodup) {a : α} (ha : a ∈ l) :
    (l ++ [a]).eraseDups = l := by
  rw [List.eraseDups_append, eraseDups_eq_self hl]
  simp [List.removeAll, ha]

theorem eraseDups_append_of_not_mem {l : List α} (hl : l.Nodup) {a : α} (ha : a ∉ l) :
    (l ++ [a]).eraseDups = l ++ [a] := by
  refine eraseDups_eq_self ?_
  rw [← List.concat_eq_append]
  exact hl.concat ha

theorem eraseDups_eraseDups_append (l l' : List α) :
    (l.eraseDups ++ l').eraseDups = (l ++ l').eraseDups := by
  have hrest : l'.removeAll l.eraseDups = l'.removeAll l := by
    refine List.filter_congr fun a _ => ?_
    simp
  rw [List.eraseDups_append, List.eraseDups_append, hrest, eraseDups_eq_self (nodup_eraseDups l)]

theorem find?_eraseDups (q : α → Bool) (l : List α) : l.eraseDups.find? q = l.find? q := by
  induction hn : l.length using Nat.strongRecOn generalizing l with
  | ind n ih =>
    cases l with
    | nil => rfl
    | cons a l =>
      rw [List.eraseDups_cons, List.find?_cons, List.find?_cons]
      cases hq : q a with
      | true => rfl
      | false =>
        -- what is erased fails the test as the first item does
        have hlen := List.length_filter_le (fun b => !b == a) l
        rw [List.length_cons] at hn
        simp only [ih _ (show (l.filter fun b => !b == a).length < n by omega) _ rfl,
          List.find?_filter]
        refine List.find?_congr fun b _ => ?_
        by_cases hb : b = a
        · simp [hb, hq]
        · simp [hb]

end FirstMentions

section SortByKey

variable {α : Type} (key : α → UInt32)

/-- Sorts by a key; items with the same key keep their order. -/
def sortByKey (l : List α) : List α := l.mergeSort fun a b => key a ≤ key b

theorem sortByKey_perm (l : List α) : (sortByKey key l).Perm l := List.mergeSort_perm l _

theorem keyLe_trans (a b c : α) (hab : decide (key a ≤ key b) = true)
    (hbc : decide (key b ≤ key c) = true) : decide (key a ≤ key c) = true := by
  simp only [decide_eq_true_eq] at hab hbc ⊢
  exact UInt32.le_trans hab hbc

theorem keyLe_total (a b : α) : (decide (key a ≤ key b) || decide (key b ≤ key a)) = true := by
  simpa using UInt32.le_total (key a) (key b)

theorem pairwise_sortByKey (l : List α) :
    (sortByKey key l).Pairwise fun a b => key a ≤ key b :=
  (List.pairwise_mergeSort (keyLe_trans key) (keyLe_total key) l).imp (by simp)

theorem orderedInsert_between {before after : List α} {a : α}
    (hbefore : ∀ b ∈ before, ¬ key a ≤ key b) (hafter : ∀ b ∈ after, key a ≤ key b) :
    (before ++ after).orderedInsert (fun a b => key a ≤ key b) a = before ++ a :: after := by
  induction before with
  | nil =>
    cases after with
    | nil => rfl
    | cons b after => exact if_pos (hafter b List.mem_cons_self)
  | cons b before ih =>
    have hb : ¬ key a ≤ key b := hbefore b List.mem_cons_self
    rw [List.cons_append, List.orderedInsert_cons, if_neg hb,
      ih fun c hc => hbefore c (List.mem_cons_of_mem b hc)]
    rfl

/-- Sorting by insertion gives the same and, unlike the other sort, can be run by reduction. -/
theorem sortByKey_eq_insertionSort (l : List α) :
    sortByKey key l = l.insertionSort fun a b => key a ≤ key b := by
  induction l with
  | nil => exact List.mergeSort_nil
  | cons a l ih =>
    obtain ⟨before, after, hcons, hl, hbefore⟩ :=
      List.mergeSort_cons (keyLe_trans key) (keyLe_total key) a l
    have hsorted : (before ++ a :: after).Pairwise fun a b => key a ≤ key b := by
      rw [← hcons]
      exact pairwise_sortByKey key (a :: l)
    have hafter := (List.pairwise_cons.1 (List.pairwise_append.1 hsorted).2.1).1
    rw [List.insertionSort_cons, ← ih, sortByKey, sortByKey, hcons, hl]
    exact (orderedInsert_between key (by simpa using hbefore) hafter).symm

theorem map_sortByKey {β : Type} (key' : β → UInt32) (f : α → β) {l : List α}
    (h : ∀ a ∈ l, key' (f a) = key a) :
    (sortByKey key l).map f = sortByKey key' (l.map f) := by
  refine List.map_mergeSort ?_
  intro a ha b hb
  simp [h a ha, h b hb]

theorem sortByKey_congr {key' : α → UInt32} {l : List α}
    (h : ∀ a ∈ l, ∀ b ∈ l, key a ≤ key b ↔ key' a ≤ key' b) :
    sortByKey key l = sortByKey key' l := by
  have hmap := List.map_mergeSort (r := fun a b => decide (key a ≤ key b))
    (s := fun a b => decide (key' a ≤ key' b)) (f := id) (l := l)
    fun a ha b hb => decide_eq_decide.2 (h a ha b hb)
  rwa [List.map_id, List.map_id] at hmap

theorem sublist_sortByKey {l ys : List α} (hys : ys.Pairwise fun a b => key a ≤ key b)
    (hsub : ys.Sublist l) : ys.Sublist (sortByKey key l) :=
  List.sublist_mergeSort (keyLe_trans key) (keyLe_total key) (hys.imp (by simp)) hsub

theorem filter_sortByKey (l : List α) (k : UInt32) :
    (sortByKey key l).filter (key · = k) = l.filter (key · = k) := by
  have hkey : (l.filter (key · = k)).Pairwise fun a b => key a ≤ key b := by
    refine List.pairwise_of_forall_mem_list ?_
    intro a ha b hb
    have hka := (List.mem_filter.1 ha).2
    have hkb := (List.mem_filter.1 hb).2
    simp only [decide_eq_true_eq] at hka hkb
    rw [hka, hkb]
    exact UInt32.le_refl k
  -- the sorted list has the selection as a sublist, and no longer selection of its own
  have hsub := (sublist_sortByKey key hkey List.filter_sublist).filter (key · = k)
  rw [List.filter_filter] at hsub
  simp only [Bool.and_self] at hsub
  have hlen := ((sortByKey_perm key l).filter (key · = k)).length_eq
  exact (hsub.eq_of_length hlen.symm).symm

theorem filter_sortByKey_of_imp {q : α → Bool} {k : UInt32} (hq : ∀ a, q a = true → key a = k)
    (l : List α) : (sortByKey key l).filter q = l.filter q := by
  have hand : ∀ l : List α, l.filter q = (l.filter (key · = k)).filter q := by
    intro l
    rw [List.filter_filter]
    refine List.filter_congr ?_
    intro a _
    cases ha : q a with
    | false => rfl
    | true => simp [hq a ha]
  rw [hand, filter_sortByKey, ← hand]

theorem find?_sortByKey_of_imp {q : α → Bool} {k : UInt32} (hq : ∀ a, q a = true → key a = k)
    (l : List α) : (sortByKey key l).find? q = l.find? q := by
  rw [← List.head?_filter, filter_sortByKey_of_imp key hq, List.head?_filter]

/-- The first item has the lesser key, or the same key and the earlier place in the list. -/
def Precedes [BEq α] (l : List α) (a b : α) : Prop :=
  key a < key b ∨ (key a = key b ∧ l.idxOf a < l.idxOf b)

theorem Precedes.asymm [BEq α] {l : List α} {a b : α} (h : Precedes key l a b) :
    ¬ Precedes key l b a := by
  unfold Precedes at *
  simp only [UInt32.lt_iff_toNat_lt, ← UInt32.toNat_inj] at *
  omega

theorem pairwise_precedes_sortByKey [BEq α] [LawfulBEq α] {l : List α} (hl : l.Nodup) :
    (sortByKey key l).Pairwise (Precedes key l) := by
  have hsorted := List.pairwise_mergeSort (List.zipIdxLE_trans (keyLe_trans key))
    (List.zipIdxLE_total (keyLe_total key)) l.zipIdx
  have hperm := List.mergeSort_perm l.zipIdx (List.zipIdxLE fun a b => key a ≤ key b)
  have hplaces : ((l.zipIdx.mergeSort (List.zipIdxLE fun a b => key a ≤ key b)).map
      Prod.snd).Nodup := by
    rw [(hperm.map Prod.snd).nodup_iff, List.zipIdx_map_snd]
    exact List.nodup_range'
  -- the items with their places have no two alike, so sorting them is sorting a strict order
  rw [sortByKey, ← List.mergeSort_zipIdx, List.pairwise_map]
  refine (hsorted.and (List.pairwise_map.1 hplaces)).imp_of_mem ?_
  rintro ⟨a, i⟩ ⟨b, j⟩ ha hb ⟨hle, hne⟩
  have hi := idxOf_eq_of_getElem? hl (List.mem_zipIdx_iff_getElem?.1 (hperm.mem_iff.1 ha))
  have hj := idxOf_eq_of_getElem? hl (List.mem_zipIdx_iff_getElem?.1 (hperm.mem_iff.1 hb))
  unfold Precedes
  simp only at hi hj hne
  simp only [List.zipIdxLE, UInt32.le_iff_toNat_le, decide_eq_true_eq] at hle
  simp only [UInt32.lt_iff_toNat_lt, ← UInt32.toNat_inj, hi, hj]
  split at hle
  · split at hle
    · simp only [decide_eq_true_eq] at hle
      omega
    · omega
  · cases hle

/-- Items that are added behind the others are sorted in between and leave their order alone. -/
theorem sortByKey_sublist_of_prefix [BEq α] [LawfulBEq α] {l l' : List α} (h : l <+: l')
    (hl' : l'.Nodup) : (sortByKey key l).Sublist (sortByKey key l') := by
  have hsubperm : (sortByKey key l).Subperm (sortByKey key l') :=
    ((sortByKey_perm key l).subperm.trans h.sublist.subperm).trans
      (sortByKey_perm key l').symm.subperm
  have hantisymm : Std.Antisymm (Precedes key l') :=
    ⟨fun a b hab hba => absurd hba (hab.asymm key)⟩
  refine List.sublist_of_subperm_of_pairwise (r := Precedes key l') hsubperm ?_
    (pairwise_precedes_sortByKey key hl')
  -- an item has the same place in the list before and after the others were added
  refine (pairwise_precedes_sortByKey key (hl'.sublist h.sublist)).imp_of_mem ?_
  intro a b ha hb hab
  obtain ⟨rest, rfl⟩ := h
  have hal := (sortByKey_perm key l).mem_iff.1 ha
  have hbl := (sortByKey_perm key l).mem_iff.1 hb
  unfold Precedes at *
  rwa [List.idxOf_append_of_mem hal, List.idxOf_append_of_mem hbl]

theorem lt_iff_of_pairwise {R : α → α → Prop} (hasymm : ∀ a b, R a b → ¬ R b a) {l : List α}
    (h : l.Pairwise R) {i j : Nat} {a b : α} (hi : l[i]? = some a) (hj : l[j]? = some b) :
    i < j ↔ R a b := by
  have hlt : ∀ {i j : Nat} {a b : α}, l[i]? = some a → l[j]? = some b → i < j → R a b := by
    intro i j a b hi hj hij
    obtain ⟨hil, rfl⟩ := List.getElem?_eq_some_iff.1 hi
    obtain ⟨hjl, rfl⟩ := List.getElem?_eq_some_iff.1 hj
    exact List.pairwise_iff_getElem.1 h i j hil hjl hij
  constructor
  · exact hlt hi hj
  · intro hab
    rcases Nat.lt_trichotomy i j with hij | rfl | hji
    · exact hij
    · obtain rfl : a = b := Option.some.inj (hi.symm.trans hj)
      exact absurd hab (hasymm a a hab)
    · exact absurd (hlt hj hi hji) (hasymm a b hab)

end SortByKey

end UsageIndex
