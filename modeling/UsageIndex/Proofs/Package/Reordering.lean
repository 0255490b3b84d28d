import Mathlib.Data.List.FinRange
import UsageIndex.Proofs.Package.Units

/-!
The order of units. Two runs over the same units in different orders give indexes that differ
in the numbers of elements and URIs, in the order of entries and in the order of rows under
different numbers, and in nothing else.
-/

set_option autoImplicit false

namespace UsageIndex

/-- The rows that an entry has under a number, less the number. -/
def UnitIndex.rowsUnder (u : UnitIndex) (n : Nat) : List (RelationKind × Location) :=
  (u.usages.filter (·.element.toNat = n)).map fun row => (row.kind, row.location)

namespace PackageIndex

structure SameElement (p p' : PackageIndex) (n n' : Nat) : Prop where
  libraryUri : ∃ uri, p.elementLibraryUri? n = some uri ∧ p'.elementLibraryUri? n' = some uri
  unitUri : ∃ uri, p.elementUnitUri? n = some uri ∧ p'.elementUnitUri? n' = some uri
  offset : ∃ offset, p.elementOffsets[n]? = some offset ∧ p'.elementOffsets[n']? = some offset

/-- The entries of the two indexes are the same but for the numbers. -/
structure SameEntry (p p' : PackageIndex) (f : Fin p.elementCount → Fin p'.elementCount)
    (u u' : UnitIndex) : Prop where
  libraryUri : ∃ uri, p.uri? u.libraryUri = some uri ∧ p'.uri? u'.libraryUri = some uri
  unitUri : ∃ uri, p.uri? u.unitUri = some uri ∧ p'.uri? u'.unitUri = some uri
  rows : ∀ i : Fin p.elementCount, u.rowsUnder i = u'.rowsUnder (f i)

theorem Describes.sameElement {m : Model} {p p' : PackageIndex} {n n' : Nat} {e : ElementId}
    (h : p.Describes m n e) (h' : p'.Describes m n' e) : p.SameElement p' n n' := by
  obtain ⟨element, unit, unitElement, unitUri, libraryUri, he, ho, hu, hue, hsource, huri, hl,
    hlibrary⟩ := h
  obtain ⟨element', unit', unitElement', unitUri', libraryUri', he', ho', hu', hue', hsource',
    huri', hl', hlibrary'⟩ := h'
  obtain rfl := Option.some.inj (he.symm.trans he')
  obtain rfl := Except.ok.inj (hu.symm.trans hu')
  obtain rfl := Option.some.inj (hue.symm.trans hue')
  obtain rfl := Option.some.inj (hsource.symm.trans hsource')
  obtain rfl := Option.some.inj (hl.symm.trans hl')
  exact ⟨⟨_, hlibrary, hlibrary'⟩, ⟨_, huri, huri'⟩, ⟨_, ho, ho'⟩⟩

theorem ShowsUnit.rowsUnder {m : Model} {o : Options} {ids : List ElementId} (hids : ids.Nodup)
    {p : PackageIndex} {unit : Node .compilationUnit} {u : UnitIndex}
    (h : p.ShowsUnit m o ids unit u) (hmem : ∀ c ∈ unit.recordedUses m o, c.target ∈ ids) {n : Nat}
    {e : ElementId} (he : ids[n]? = some e) :
    u.rowsUnder n = ((unit.recordedUses m o).filter (·.target = e)).map
      fun c => (c.kind, c.location) := by
  have hunder : ∀ c ∈ UnitRecorder.sortedUses ids (unit.recordedUses m o),
      decide ((c.row ids).element.toNat = n) = decide (c.target = e) := by
    intro c hc
    have htarget := hmem c ((sortByKey_perm _ _).mem_iff.1 hc)
    rw [Candidate.toNat_element_row hids htarget, decide_eq_decide]
    constructor
    · rintro rfl
      exact Option.some.inj ((List.getElem?_idxOf htarget).symm.trans he)
    · rintro rfl
      exact idxOf_eq_of_getElem? hids he
  -- sorting by number keeps the order of the rows that have the same number
  rw [UnitIndex.rowsUnder, h.usages, UnitRecorder.rows_eq, List.filter_map, List.map_map]
  have hfilter := List.filter_congr hunder
  rw [(UnitRecorder.keepsUses_sortedUses ids _).order e] at hfilter
  exact congrArg (List.map _) hfilter

end PackageIndex

section

variable {m : Model} {o : Options} {units units' : List (Node .compilationUnit)}
  {p p' : PackageIndex}

theorem numberingOf_perm_of_perm (h : units.Perm units') :
    (numberingOf m o units).Perm (numberingOf m o units') := by
  rw [List.perm_ext_iff_of_nodup (nodup_numberingOf m o units) (nodup_numberingOf m o units')]
  intro e
  simp only [mem_numberingOf, mem_mentioned, h.mem_iff]

theorem PackageIndex.Shows.sameEntry (h : p.Shows m o units) (h' : p'.Shows m o units')
    {f : Fin p.elementCount → Fin p'.elementCount}
    (hf : ∀ (i : Fin p.elementCount) (e : ElementId),
      (numberingOf m o units)[i.val]? = some e → (numberingOf m o units')[(f i).val]? = some e)
    {k k' : Nat} {unit : Node .compilationUnit} (hk : units[k]? = some unit)
    (hk' : units'[k']? = some unit) :
    ∃ u u', p.units[k]? = some u ∧ p'.units[k']? = some u' ∧ p.SameEntry p' f u u' := by
  obtain ⟨u, hu, hentry⟩ := forall₂_getElem? h.entries hk
  obtain ⟨u', hu', hentry'⟩ := forall₂_getElem? h'.entries hk'
  obtain ⟨pair, hpair, hlibrary, hunit⟩ := hentry.uris
  obtain ⟨pair', hpair', hlibrary', hunit'⟩ := hentry'.uris
  obtain rfl := Except.ok.inj (hpair.symm.trans hpair')
  refine ⟨u, u', hu, hu', ⟨_, hlibrary, hlibrary'⟩, ⟨_, hunit, hunit'⟩, ?_⟩
  intro i
  obtain ⟨e, he⟩ := h.exists_element i
  rw [hentry.rowsUnder (nodup_numberingOf m o units) ?_ he,
    hentry'.rowsUnder (nodup_numberingOf m o units') ?_ (hf i e he)]
  · exact fun c hc => target_mem_numberingOf (List.mem_of_getElem? hk') hc
  · exact fun c hc => target_mem_numberingOf (List.mem_of_getElem? hk) hc

end

/-- Units that can be indexed can be indexed in any order, and the indexes differ in numbers
only. -/
theorem indexUnits_reordered {m : Model} {o : Options} {units : List (Node .compilationUnit)}
    {p : PackageIndex} (h : (indexUnits m o units).1 = .ok p)
    (σ : Equiv.Perm (Fin units.length)) :
    ∃ p', (indexUnits m o (List.ofFn fun k => units.get (σ k))).1 = .ok p' ∧
      p.units.length = units.length ∧ p'.units.length = units.length ∧
      ∃ f : Fin p.elementCount ≃ Fin p'.elementCount,
        (∀ i : Fin p.elementCount, p.SameElement p' i (f i)) ∧
        ∀ k : Fin units.length, ∃ u u', p.units[(σ k).val]? = some u ∧ p'.units[k.val]? = some u' ∧
          p.SameEntry p' f u u' := by
  have hperm : (List.ofFn fun k => units.get (σ k)).Perm units := by
    have hofFn := σ.ofFn_comp_perm units.get
    rwa [List.ofFn_get] at hofFn
  have hroots := roots_of_indexUnits h
  have hrun : FullRun m o (List.ofFn fun k => units.get (σ k)) :=
    fullRun_of_roots fun unit hunit => hroots unit (hperm.mem_iff.1 hunit)
  have hshows := shows_of_indexUnits h
  have hshows' := hrun.shows
  refine ⟨_, hrun.indexUnits_eq, hshows.entries.length_eq.symm, ?_, ?_⟩
  · rw [← hshows'.entries.length_eq, List.length_ofFn]
  · -- an element's number in one index goes to its number in the other
    obtain ⟨f, hf⟩ := exists_renumbering (nodup_numberingOf m o units)
      (numberingOf_perm_of_perm hperm.symm) hshows.elementCount_eq hshows'.elementCount_eq
    refine ⟨f, ?_, ?_⟩
    · intro i
      obtain ⟨e, he⟩ := hshows.exists_element i
      exact (hshows.described i e he).sameElement (hshows'.described (f i) e (hf i e he))
    · intro k
      exact hshows.sameEntry hshows' hf (List.getElem?_eq_getElem (σ k).isLt) (by simp)

/-- In the other order the two elements change their numbers. -/
theorem indexUnits_reordered_sample :
    (indexUnits Sample.model {} [Sample.unitA, Sample.unitB]).1 = .ok Sample.index ∧
      ∃ f : Fin Sample.index.elementCount ≃ Fin Sample.reversed.elementCount,
        (∀ i, Sample.index.SameElement Sample.reversed i.val (f i).val) ∧
        ∀ k : Fin 2, ∃ u u', Sample.index.units[(Equiv.swap 0 1 k).val]? = some u ∧
          Sample.reversed.units[k.val]? = some u' ∧
          Sample.index.SameEntry Sample.reversed f u u' := by
  refine ⟨Sample.indexUnits_eq, ?_⟩
  obtain ⟨p', hp', -, -, hsame⟩ :=
    indexUnits_reordered Sample.indexUnits_eq (Equiv.swap (0 : Fin 2) 1)
  obtain rfl := Except.ok.inj (hp'.symm.trans Sample.indexUnits_eq_reversed)
  exact hsame

end UsageIndex
