import UsageIndex.Proofs.Package.Assembly
import UsageIndex.Proofs.Unit.Classification

/-!
The elements of a finished index. They are the targets of the recorded relations, each once;
they are numbered without gaps by the offsets of their names, equal offsets in the order of
first mention; and every number is used by some row.
-/

set_option autoImplicit false

namespace UsageIndex

/-- The targets of all relations that were recorded, in the order of recording. -/
def PackageBuilder.targets? (b : PackageBuilder) : Option (List ElementId) :=
  (b.units.flatMap (·.relations)).mapM fun r =>
    (b.tables.elements.get? r.target).map (·.element)

/-- The index numbers just these elements, by the offsets of their names; elements with the same
offset keep their order. -/
structure PackageIndex.NumbersElements (m : Model) (elements : List ElementId)
    (number : Nat → ElementId → Prop) (p : PackageIndex) : Prop where
  count : p.elementCount = elements.length
  bounded : ∀ n e, number n e → n < elements.length ∧ e ∈ elements
  total : ∀ e ∈ elements, ∃! n, number n e
  onto : ∀ n < elements.length, ∃! e, number n e
  ordered : ∀ i j e e', number i e → number j e' → (i < j ↔ Precedes m.nameOffset elements e e')
  ascending : p.elementOffsets.Pairwise (· ≤ ·)
  described : ∀ n e, number n e → p.Describes m n e
  used : ∀ n, n < p.elementCount ↔ ∃ u ∈ p.units, ∃ row ∈ u.usages, row.element.toNat = n

namespace FullRun

variable {m : Model} {o : Options} {units : List (Node .compilationUnit)}

theorem targets? (h : FullRun m o units) :
    (builderOf m o units).targets? =
      some ((units.flatMap (Tree.recordedUses m o)).map (·.target)) := by
  have hsplit : (units.flatMap (Tree.recordedUses m o)).map (·.target) =
      (units.map (Tree.recordedUses m o)).flatMap fun us => us.map (·.target) := by
    rw [List.map_flatMap, List.flatMap_map]
  rw [PackageBuilder.targets?, mapM_eq_some_iff, hsplit]
  refine List.rel_flatMap h.uses ?_
  intro u us hus
  rw [UnitRecorder.uses?, mapM_eq_some_iff] at hus
  refine List.forall₂_map_right_iff.2 (hus.imp ?_)
  intro r c hc
  obtain ⟨record, hr, rfl⟩ := Option.map_eq_some_iff.1 hc
  exact Option.map_eq_some_iff.2 ⟨record, hr, rfl⟩

theorem numbers_iff (h : FullRun m o units) {n : Nat} {e : ElementId} :
    (builderOf m o units).tables.elements.assignIds.Numbers n e ↔
      (numberingOf m o units)[n]? = some e := by
  rw [ElementTable.numbers_assignIds h.nodup_elementIds, h.numbering_eq]

theorem exists_numbered (h : FullRun m o units) {n : Nat}
    (hn : n < (numberingOf m o units).length) :
    ∃ e ∈ mentioned m o units,
      (∀ e', (builderOf m o units).tables.elements.assignIds.Numbers n e' ↔ e' = e) ∧
        (numberingOf m o units)[n]? = some e := by
  refine ⟨_, mem_numberingOf.1 (List.getElem_mem hn), ?_, List.getElem?_eq_getElem hn⟩
  intro e'
  rw [h.numbers_iff, List.getElem?_eq_getElem hn, Option.some.injEq, eq_comm]

end FullRun

namespace PackageIndex.Shows

variable {m : Model} {o : Options} {units : List (Node .compilationUnit)} {p : PackageIndex}

theorem elementCount_eq (h : p.Shows m o units) :
    p.elementCount = (numberingOf m o units).length :=
  h.count.trans (numberingOf_perm m o units).length_eq.symm

theorem exists_element (h : p.Shows m o units) (i : Fin p.elementCount) :
    ∃ e, (numberingOf m o units)[i.val]? = some e :=
  ⟨_, List.getElem?_eq_getElem (h.elementCount_eq ▸ i.isLt)⟩

theorem mem_usages_iff {u : UnitIndex} {unit : Node .compilationUnit}
    (h : p.ShowsUnit m o (numberingOf m o units) unit u) {row : Usage} :
    row ∈ u.usages ↔ ∃ c ∈ unit.recordedUses m o, c.row (numberingOf m o units) = row := by
  rw [h.usages, UnitRecorder.rows, (sortByKey_perm _ _).mem_iff, List.mem_map]

theorem lt_elementCount_iff (h : p.Shows m o units) {n : Nat} :
    n < p.elementCount ↔ ∃ u ∈ p.units, ∃ row ∈ u.usages, row.element.toNat = n := by
  have hnodup := nodup_numberingOf m o units
  rw [h.elementCount_eq]
  constructor
  · intro hn
    obtain ⟨unit, hunit, c, hc, he⟩ :=
      mem_mentioned.1 (mem_numberingOf.1 (List.getElem_mem hn))
    obtain ⟨u, hu, hshows⟩ := forall₂_mem h.entries hunit
    refine ⟨u, hu, _, (mem_usages_iff hshows).2 ⟨c, hc, rfl⟩, ?_⟩
    rw [Candidate.toNat_element_row hnodup (he ▸ List.getElem_mem hn), he]
    exact hnodup.idxOf_getElem n hn
  · rintro ⟨u, hu, row, hrow, rfl⟩
    obtain ⟨unit, hunit, hshows⟩ := forall₂_mem h.entries.flip hu
    obtain ⟨c, hc, rfl⟩ := (mem_usages_iff hshows).1 hrow
    have hmem := target_mem_numberingOf hunit hc
    rw [Candidate.toNat_element_row hnodup hmem]
    exact List.idxOf_lt_length_of_mem hmem

theorem numbersElements (h : p.Shows m o units) :
    p.NumbersElements m (mentioned m o units) fun n e =>
      (numberingOf m o units)[n]? = some e where
  count := h.count
  bounded := by
    intro n e he
    obtain ⟨hlt, -⟩ := List.getElem?_eq_some_iff.1 he
    rw [(numberingOf_perm m o units).length_eq] at hlt
    exact ⟨hlt, mem_numberingOf.1 (List.mem_of_getElem? he)⟩
  total := by
    intro e he
    simp only [getElem?_eq_some_iff_idxOf (nodup_numberingOf m o units)]
    exact ⟨_, ⟨mem_numberingOf.2 he, rfl⟩, fun n hn => hn.2.symm⟩
  onto := by
    intro n hn
    rw [← (numberingOf_perm m o units).length_eq] at hn
    exact ⟨_, List.getElem?_eq_getElem hn, fun e he =>
      Option.some.inj (he.symm.trans (List.getElem?_eq_getElem hn))⟩
  ordered := by
    intro i j e e' hi hj
    exact lt_iff_of_pairwise (fun _ _ => Precedes.asymm _)
      (pairwise_precedes_sortByKey _ (nodup_mentioned m o units)) hi hj
  ascending := by
    rw [h.offsets, List.pairwise_map]
    exact pairwise_sortByKey _ _
  described := h.described
  used := fun _ => h.lt_elementCount_iff

end PackageIndex.Shows

/-- A finished index numbers the targets of the relations that were recorded for it. -/
theorem numbersElements_of_indexUnits {m : Model} {o : Options}
    {units : List (Node .compilationUnit)} {p : PackageIndex}
    (h : (indexUnits m o units).1 = .ok p) :
    ∃ targets, (builderOf m o units).targets? = some targets ∧
      p.NumbersElements m targets.eraseDups
        (builderOf m o units).tables.elements.assignIds.Numbers := by
  have hrun : FullRun m o units := fullRun_of_roots (roots_of_indexUnits h)
  refine ⟨_, hrun.targets?, ?_⟩
  have hnumber : (builderOf m o units).tables.elements.assignIds.Numbers =
      fun n e => (numberingOf m o units)[n]? = some e := by
    funext n e
    exact propext hrun.numbers_iff
  rw [hnumber]
  exact (shows_of_indexUnits h).numbersElements

namespace Sample

def index : PackageIndex where
  libraryUris := [1, 0]
  unitUris := [1, 0]
  elementUnits := [0, 1]
  elementOffsets := [6, 6]
  uris := ["a", "b"]
  units := [
    .ofUsages 0 0 [⟨0, .isExtendedBy, ⟨16, 1⟩⟩, ⟨1, .isReferencedBy, ⟨18, 1⟩⟩],
    .ofUsages 1 1 [⟨1, .isExtendedBy, ⟨16, 1⟩⟩, ⟨1, .isReferencedBy, ⟨18, 1⟩⟩]]

theorem indexUnits_eq : (indexUnits model {} [unitA, unitB]).1 = .ok index :=
  indexUnits_eq_ok (by decide +kernel) (by decide +kernel)

end Sample

/-- Two elements whose names have the same offset are numbered as they were mentioned. -/
theorem numbersElements_of_indexUnits_sample :
    (indexUnits Sample.model {} [Sample.unitA, Sample.unitB]).1 = .ok Sample.index ∧
      Sample.index.NumbersElements Sample.model [⟨5⟩, ⟨2⟩]
        (builderOf Sample.model {}
          [Sample.unitA, Sample.unitB]).tables.elements.assignIds.Numbers := by
  refine ⟨Sample.indexUnits_eq, ?_⟩
  obtain ⟨targets, htargets, hnumbers⟩ := numbersElements_of_indexUnits Sample.indexUnits_eq
  have hsame : (builderOf Sample.model {} [Sample.unitA, Sample.unitB]).targets? =
      some [⟨5⟩, ⟨2⟩, ⟨2⟩, ⟨2⟩] := by decide +kernel
  obtain rfl := Option.some.inj (htargets.symm.trans hsame)
  exact hnumbers

end UsageIndex
