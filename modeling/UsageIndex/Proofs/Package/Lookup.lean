import UsageIndex.Proofs.Package.Consistency

/-!
Looking up the uses of an element. The rows of a unit ascend by the numbers of their elements,
so the rows of one element are a run between two boundaries, and bisection finds both. What is
found this way is what a look at every row finds.
-/

set_option autoImplicit false

namespace UsageIndex

theorem partitionPoint_bounds {p : Nat → Bool} {lo hi : Nat} (h : lo ≤ hi) :
    lo ≤ partitionPoint p lo hi ∧ partitionPoint p lo hi ≤ hi := by
  fun_induction partitionPoint p lo hi with
  | case1 lo hi hlt mid hmid ih =>
    obtain ⟨hlower, hupper⟩ := ih (by omega)
    exact ⟨by omega, hupper⟩
  | case2 lo hi hlt mid hmid ih =>
    obtain ⟨hlower, hupper⟩ := ih (by omega)
    exact ⟨hlower, by omega⟩
  | case3 lo hi hge => exact ⟨Nat.le_refl lo, h⟩

/-- If a test holds before every place where it holds, bisection finds where it ends. -/
theorem lt_partitionPoint_iff {p : Nat → Bool} (hp : ∀ i j, i ≤ j → p j = true → p i = true)
    {lo hi i : Nat} (hlo : lo ≤ i) (hhi : i < hi) :
    i < partitionPoint p lo hi ↔ p i = true := by
  fun_induction partitionPoint p lo hi with
  | case1 lo hi hlt mid hmid ih =>
    by_cases hpassed : mid < i
    · exact ih hpassed hhi
    · -- the place lies in the half that was passed over because the test holds at its end
      have hpoint := (partitionPoint_bounds (p := p) (show mid + 1 ≤ hi by omega)).1
      exact iff_of_true (by omega) (hp i mid (by omega) hmid)
  | case2 lo hi hlt mid hmid ih =>
    by_cases hkept : i < mid
    · exact ih hlo hkept
    · have hpoint := (partitionPoint_bounds (p := p) (show lo ≤ mid by omega)).2
      exact iff_of_false (by omega) fun hpi => hmid (hp mid i (by omega) hpi)
  | case3 lo hi hge => omega

theorem filter_range_between {n lo hi : Nat} (h : hi ≤ n) :
    (List.range n).filter (fun i => lo ≤ i ∧ i < hi) = List.range' lo (hi - lo) := by
  have hperm : ((List.range n).filter (fun i => lo ≤ i ∧ i < hi)).Perm
      (List.range' lo (hi - lo)) := by
    rw [List.perm_ext_iff_of_nodup (List.nodup_range.filter _) List.nodup_range']
    intro i
    simp only [List.mem_filter, List.mem_range, List.mem_range'_1, decide_eq_true_eq]
    omega
  exact hperm.eq_of_pairwise (fun _ _ _ _ hij hji => absurd hji (Nat.lt_asymm hij))
    (List.pairwise_lt_range.filter _) List.pairwise_lt_range'

section ByKey

variable {α : Type} {key : α → UInt32}

theorem filter_append_of_least {l : List α} (hl : l.Pairwise fun a b => key a ≤ key b)
    {k : UInt32} (hk : ∀ a ∈ l, k ≤ key a) :
    l.filter (key · = k) ++ l.filter (key · ≠ k) = l := by
  induction l with
  | nil => rfl
  | cons a l ih =>
    obtain ⟨ha, hl⟩ := List.pairwise_cons.1 hl
    by_cases he : key a = k
    · have hrest := ih hl fun b hb => hk b (List.mem_cons_of_mem a hb)
      simpa [he] using hrest
    · -- behind a greater key all keys are greater
      have hnone : (a :: l).filter (key · = k) = [] := by
        rw [List.filter_eq_nil_iff]
        intro b hb
        simp only [decide_eq_true_eq]
        rintro rfl
        rcases List.mem_cons.1 hb with rfl | hmem
        · exact he rfl
        · exact he (UInt32.le_antisymm (ha b hmem) (hk a List.mem_cons_self))
      have hall : (a :: l).filter (key · ≠ k) = a :: l := by
        simpa [List.filter_eq_nil_iff, List.filter_eq_self] using hnone
      rw [hnone, hall, List.nil_append]

/-- A list that ascends by a key is what its parts with the same key make, one after the other. -/
theorem flatMap_filter_key {l : List α} (hl : l.Pairwise fun a b => key a ≤ key b)
    {ks : List UInt32} (hks : ks.Pairwise (· < ·)) (hmem : ∀ a ∈ l, key a ∈ ks) :
    (ks.flatMap fun k => l.filter (key · = k)) = l := by
  induction ks generalizing l with
  | nil => exact (List.eq_nil_iff_forall_not_mem.2 fun a ha => nomatch hmem a ha).symm
  | cons k ks ih =>
    obtain ⟨hk, hks⟩ := List.pairwise_cons.1 hks
    have hleast : ∀ a ∈ l, k ≤ key a := by
      intro a ha
      rcases List.mem_cons.1 (hmem a ha) with he | hlater
      · exact he ▸ UInt32.le_refl k
      · exact UInt32.le_of_lt (hk _ hlater)
    have hrest : (ks.flatMap fun j => l.filter (key · = j)) = l.filter (key · ≠ k) := by
      rw [← ih (hl.filter _) hks]
      · refine List.flatMap_congr fun j hj => ?_
        rw [List.filter_filter]
        refine List.filter_congr fun a _ => ?_
        have hne : j ≠ k := (UInt32.ne_of_lt (hk j hj)).symm
        grind
      · intro a ha
        obtain ⟨hal, hne⟩ := List.mem_filter.1 ha
        exact List.mem_of_ne_of_mem (by simpa using hne) (hmem a hal)
    rw [List.flatMap_cons, hrest]
    exact filter_append_of_least hl hleast

end ByKey

namespace UnitIndex

variable {u : UnitIndex}

theorem elements_getElem?_of_usage? {i : Nat} {row : Usage} (h : u.usage? i = some row) :
    u.elements[i]? = some row.element := by
  simp only [usage?, bind, pure, Option.bind_eq_some_iff, Option.some.injEq] at h
  obtain ⟨e, he, kind, -, offset, -, length, -, rfl⟩ := h
  exact he

theorem elements_le (h : u.elements.Pairwise (· ≤ ·)) {i j : Nat} (hij : i ≤ j) {a b : UInt32}
    (ha : u.elements[i]? = some a) (hb : u.elements[j]? = some b) : a ≤ b := by
  obtain ⟨hi, rfl⟩ := List.getElem?_eq_some_iff.1 ha
  obtain ⟨hj, rfl⟩ := List.getElem?_eq_some_iff.1 hb
  rcases Nat.lt_or_eq_of_le hij with hlt | rfl
  · exact List.pairwise_iff_getElem.1 h i j hi hj hlt
  · exact UInt32.le_refl _

theorem boundary_le_size (u : UnitIndex) (test : UInt32 → Bool) : u.boundary test ≤ u.size :=
  (partitionPoint_bounds (Nat.zero_le _)).2

theorem lt_boundary_iff (h : u.elements.Pairwise (· ≤ ·)) {test : UInt32 → Bool}
    (htest : ∀ a b, a ≤ b → test b = true → test a = true) {i : Nat} {e : UInt32}
    (hi : u.elements[i]? = some e) : i < u.boundary test ↔ test e = true := by
  have hlt : i < u.size := (List.getElem?_eq_some_iff.1 hi).1
  have hp : ∀ i j : Nat, i ≤ j → (u.elements[j]?).any test = true →
      (u.elements[i]?).any test = true := by
    intro i j hij hj
    obtain ⟨b, hb, htb⟩ := (Option.any_eq_true _ _).1 hj
    have hjlt : j < u.elements.length := (List.getElem?_eq_some_iff.1 hb).1
    have ha : u.elements[i]? = some u.elements[i] := List.getElem?_eq_getElem (by omega)
    exact (Option.any_eq_true _ _).2 ⟨_, ha, htest _ b (elements_le h hij ha hb) htb⟩
  rw [boundary, lt_partitionPoint_iff hp (Nat.zero_le i) hlt, hi]
  rfl

theorem between_boundaries_iff (h : u.elements.Pairwise (· ≤ ·)) {i : Nat} {a : UInt32}
    (hi : u.elements[i]? = some a) (e : UInt32) :
    u.boundary (· < e) ≤ i ∧ i < u.boundary (· ≤ e) ↔ a = e := by
  have hstart : i < u.boundary (· < e) ↔ a < e := by
    rw [lt_boundary_iff h _ hi, decide_eq_true_eq]
    intro b c hbc hc
    simp only [decide_eq_true_eq] at hc ⊢
    exact UInt32.lt_of_le_of_lt hbc hc
  have hstop : i < u.boundary (· ≤ e) ↔ a ≤ e := by
    rw [lt_boundary_iff h _ hi, decide_eq_true_eq]
    intro b c hbc hc
    simp only [decide_eq_true_eq] at hc ⊢
    exact UInt32.le_trans hbc hc
  rw [← Nat.not_lt, hstart, hstop]
  simp only [UInt32.lt_iff_toNat_lt, UInt32.le_iff_toNat_le, ← UInt32.toNat_inj]
  omega

theorem usagesOf_eq_filter (h : u.elements.Pairwise (· ≤ ·)) (e : UInt32) :
    u.usagesOf e = u.usages.filter (·.element = e) := by
  rw [usagesOf, usages, ← filter_range_between (u.boundary_le_size _), List.filterMap_filter,
    List.filter_filterMap]
  refine List.filterMap_congr fun i hi => ?_
  cases hrow : u.usage? i with
  | none => simp
  | some row =>
    have hplace := between_boundaries_iff h (elements_getElem?_of_usage? hrow) e
    simp [Option.filter, hplace]

theorem pairwise_usages (h : u.elements.Pairwise (· ≤ ·)) :
    u.usages.Pairwise fun a b => a.element ≤ b.element := by
  rw [usages, List.pairwise_filterMap]
  refine List.pairwise_lt_range.imp ?_
  intro i j hij a ha b hb
  exact elements_le h (Nat.le_of_lt hij) (elements_getElem?_of_usage? ha)
    (elements_getElem?_of_usage? hb)

theorem element_mem_of_mem_usages {row : Usage} (h : row ∈ u.usages) :
    row.element ∈ u.elements := by
  obtain ⟨i, -, hi⟩ := List.mem_filterMap.1 h
  exact List.mem_of_getElem? (elements_getElem?_of_usage? hi)

end UnitIndex

namespace PackageIndex

/-- The uses of an element, found by looking at every row. -/
def scan (p : PackageIndex) (element : UInt32) : List PackageUsage :=
  p.units.zipIdx.flatMap fun (u, i) =>
    (u.usages.filter (·.element = element)).map fun row => ⟨i, row.kind, row.location⟩

def elementNumbers (p : PackageIndex) : List UInt32 :=
  (List.range (min p.elementCount UInt32.size)).map UInt32.ofNat

theorem mem_elementNumbers {p : PackageIndex} {e : UInt32} :
    e ∈ p.elementNumbers ↔ e.toNat < p.elementCount := by
  have he := e.toNat_lt_size
  simp only [elementNumbers, List.mem_map, List.mem_range]
  constructor
  · rintro ⟨n, hn, rfl⟩
    rw [toNat_ofNat_of_lt (by omega)]
    omega
  · intro h
    exact ⟨e.toNat, by omega, UInt32.ofNat_toNat⟩

theorem pairwise_elementNumbers (p : PackageIndex) : p.elementNumbers.Pairwise (· < ·) := by
  rw [elementNumbers, List.pairwise_map]
  refine List.pairwise_lt_range.imp_of_mem ?_
  intro i j hi hj hij
  rw [List.mem_range] at hi hj
  rw [UInt32.lt_iff_toNat_lt, toNat_ofNat_of_lt (by omega), toNat_ofNat_of_lt (by omega)]
  exact hij

variable {p : PackageIndex}

theorem units_of_isConsistent (h : p.isConsistent = true) {u : UnitIndex} (hu : u ∈ p.units) :
    (∀ e ∈ u.elements, e.toNat < p.elementCount) ∧ u.elements.Pairwise (· ≤ ·) := by
  simp only [isConsistent, Bool.and_eq_true, List.all_eq_true, decide_eq_true_eq,
    isAscending_iff] at h
  obtain ⟨-, hunits⟩ := h
  obtain ⟨⟨-, hids⟩, hascending⟩ := hunits u hu
  exact ⟨hids, hascending⟩

theorem usagesOf_eq_of_isConsistent (h : p.isConsistent = true) (e : UInt32) :
    p.usagesOf e = p.scan e := by
  refine List.flatMap_congr ?_
  rintro ⟨u, i⟩ hentry
  have hu : u ∈ p.units := List.fst_mem_of_mem_zipIdx hentry
  simp only [UnitIndex.usagesOf_eq_filter (units_of_isConsistent h hu).2]

theorem scan_eq_nil (h : p.isConsistent = true) {e : UInt32} (he : p.elementCount ≤ e.toNat) :
    p.scan e = [] := by
  rw [scan, List.flatMap_eq_nil_iff]
  rintro ⟨u, i⟩ hentry
  have hu : u ∈ p.units := List.fst_mem_of_mem_zipIdx hentry
  rw [List.map_eq_nil_iff, List.filter_eq_nil_iff]
  intro row hrow
  have hlt := (units_of_isConsistent h hu).1 _ (UnitIndex.element_mem_of_mem_usages hrow)
  simp only [decide_eq_true_eq]
  rintro rfl
  omega

theorem flatMap_usagesOf (h : p.isConsistent = true) {u : UnitIndex} (hu : u ∈ p.units) :
    p.elementNumbers.flatMap u.usagesOf = u.usages := by
  obtain ⟨hids, hascending⟩ := units_of_isConsistent h hu
  rw [funext (UnitIndex.usagesOf_eq_filter hascending)]
  refine flatMap_filter_key (UnitIndex.pairwise_usages hascending) p.pairwise_elementNumbers ?_
  intro row hrow
  exact mem_elementNumbers.2 (hids _ (UnitIndex.element_mem_of_mem_usages hrow))

end PackageIndex

/-- Bisection finds the rows that a look at every row finds, in a unit whose elements ascend and
in every consistent index; there it finds nothing under numbers that no element has, and the rows
of all elements are all rows. -/
theorem usagesOf_eq_scan :
    (∀ u : UnitIndex, u.elements.Pairwise (· ≤ ·) →
      ∀ e, u.usagesOf e = u.usages.filter (·.element = e)) ∧
    (∀ p : PackageIndex, p.isConsistent = true →
      (∀ e, p.usagesOf e = p.scan e) ∧
      (∀ e, p.elementCount ≤ e.toNat → p.usagesOf e = []) ∧
      ∀ u ∈ p.units, p.elementNumbers.flatMap u.usagesOf = u.usages) := by
  refine ⟨fun u h e => UnitIndex.usagesOf_eq_filter h e, fun p h => ⟨?_, ?_, ?_⟩⟩
  · exact PackageIndex.usagesOf_eq_of_isConsistent h
  · intro e he
    rw [PackageIndex.usagesOf_eq_of_isConsistent h, PackageIndex.scan_eq_nil h he]
  · intro u hu
    exact PackageIndex.flatMap_usagesOf h hu

def Sample.ragged : UnitIndex where
  elements := [1, 1, 3]
  kinds := [.isExtendedBy, .isReferencedBy]
  offsets := [16, 18, 40]
  lengths := [1, 1, 1]

/-- The incomplete row is found by neither way; in the index one element is used in both units. -/
theorem usagesOf_eq_scan_sample :
    Sample.ragged.elements.Pairwise (· ≤ ·) ∧ Sample.ragged.usagesOf 3 = [] ∧
      Sample.ragged.usagesOf 1 =
        [⟨1, .isExtendedBy, ⟨16, 1⟩⟩, ⟨1, .isReferencedBy, ⟨18, 1⟩⟩] ∧
      Sample.index.isConsistent = true ∧
      Sample.index.usagesOf 1 =
        [⟨0, .isReferencedBy, ⟨18, 1⟩⟩, ⟨1, .isExtendedBy, ⟨16, 1⟩⟩,
          ⟨1, .isReferencedBy, ⟨18, 1⟩⟩] ∧
      Sample.index.usagesOf 2 = [] := by
  obtain ⟨hunit, hpackage⟩ := usagesOf_eq_scan
  have hascending : Sample.ragged.elements.Pairwise (· ≤ ·) := by decide
  have hconsistent : Sample.index.isConsistent = true := by decide
  obtain ⟨hscan, hnone, -⟩ := hpackage Sample.index hconsistent
  refine ⟨hascending, ?_, ?_, hconsistent, ?_, hnone 2 (by decide)⟩
  · rw [hunit _ hascending]
    decide
  · rw [hunit _ hascending]
    decide
  · rw [hscan]
    decide

end UsageIndex
