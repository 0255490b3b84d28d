import UsageIndex.Proofs.Package.Units

/-!
Adding units. The tables of a builder only grow at their ends, so an index finds all it says
again in the index of more units: the same URIs under the same numbers, the same elements in the
same order with new ones in between, and the same entries but for the numbers of elements.
-/

set_option autoImplicit false

namespace UsageIndex

section Runs

variable {m : Model} {o : Options} {before added : List (Node .compilationUnit)}

theorem PackageBuilder.indexAll_append {b b' : PackageBuilder}
    (h : b.indexAll before = (b', none)) :
    b.indexAll (before ++ added) = b'.indexAll added := by
  induction before generalizing b with
  | nil =>
    obtain rfl : b = b' := congrArg Prod.fst h
    rfl
  | cons unit rest ih =>
    cases hstep : b.indexUnit unit with
    | error fault => simp [indexAll, hstep] at h
    | ok b₁ =>
      rw [indexAll, hstep] at h
      rw [List.cons_append, indexAll, hstep]
      exact ih h

theorem ran_builderOf_append
    (hu : ∀ unit ∈ before ++ added, ∃ pair, m.unitUris unit.unitElement = .ok pair) :
    (builderOf m o before).Ran m o added (builderOf m o (before ++ added)) := by
  obtain ⟨b, hrun, hran⟩ := PackageBuilder.indexAll_ok (b := { model := m, options := o }) rfl rfl
    (Tables.traced_empty m) fun unit hunit => hu unit (List.mem_append_left _ hunit)
  obtain ⟨b', hrun', hran'⟩ := PackageBuilder.indexAll_ok hran.model hran.options hran.traced
    fun unit hunit => hu unit (List.mem_append_right _ hunit)
  have hb : builderOf m o before = b := by rw [builderOf, hrun]
  have hb' : builderOf m o (before ++ added) = b' := by
    rw [builderOf, PackageBuilder.indexAll_append hrun, hrun']
  rw [hb, hb']
  exact hran'

end Runs

namespace Tables.Extends

variable {t t' : Tables}

theorem sorted_sublist (h : t.Extends t') (hnodup : t'.elements.elementIds.Nodup) :
    t.elements.sorted.Sublist t'.elements.sorted :=
  sortByKey_sublist_of_prefix _ h.records (.of_map _ hnodup)

theorem unitKey {m : Model} (h : t.Extends t') (ht : t.Traced m) {r : ElementRecord}
    (hr : r ∈ t.elements.records) :
    PackageBuilder.unitKey t'.elements r = PackageBuilder.unitKey t.elements r := by
  obtain ⟨-, hkey, -⟩ := ht.unitKey hr
  rw [PackageBuilder.unitKey, getElem?_mono h.units hkey, Option.getD_some]

end Tables.Extends

namespace PackageIndex

structure KeepsElement (p p' : PackageIndex) (n n' : Nat) : Prop where
  libraryUri : ∃ uri, p.libraryUris[n]? = some uri ∧ p'.libraryUris[n']? = some uri
  unitUri : ∃ uri, p.unitUris[n]? = some uri ∧ p'.unitUris[n']? = some uri
  unit : ∃ unit, p.elementUnits[n]? = some unit ∧ p'.elementUnits[n']? = some unit
  offset : ∃ offset, p.elementOffsets[n]? = some offset ∧ p'.elementOffsets[n']? = some offset

/-- The columns of the two entries are the same, but for the numbers of elements, which go from
one entry to the other by `f`. -/
structure KeepsEntry (p p' : PackageIndex) (f : Fin p.elementCount → Fin p'.elementCount)
    (u u' : UnitIndex) : Prop where
  libraryUri : u'.libraryUri = u.libraryUri
  unitUri : u'.unitUri = u.unitUri
  kinds : u'.kinds = u.kinds
  offsets : u'.offsets = u.offsets
  lengths : u'.lengths = u.lengths
  elements : List.Forall₂ (fun id id' : UInt32 => ∃ n : Fin p.elementCount,
    id.toNat = n.val ∧ id'.toNat = (f n).val) u.elements u'.elements

end PackageIndex

theorem PackageBuilder.elementCount_index (b : PackageBuilder) (uss : List (List Candidate)) :
    (b.index uss).elementCount = b.tables.elements.sorted.length :=
  List.length_map _

theorem PackageBuilder.keepsElement_index {m : Model} {b b' : PackageBuilder}
    (h : b.tables.Extends b'.tables) (ht : b.tables.Traced m) {uss uss' : List (List Candidate)}
    {n n' : Nat} {r : ElementRecord} (hr : b.tables.elements.sorted[n]? = some r)
    (hr' : b'.tables.elements.sorted[n']? = some r) :
    (b.index uss).KeepsElement (b'.index uss') n n' := by
  have hmem : r ∈ b.tables.elements.records :=
    (sortByKey_perm _ _).mem_iff.1 (List.mem_of_getElem? hr)
  have hkey := h.unitKey ht hmem
  refine ⟨⟨(unitKey b.tables.elements r).library.index, ?_, ?_⟩,
    ⟨(unitKey b.tables.elements r).unit.index, ?_, ?_⟩, ⟨r.unit, ?_, ?_⟩, ⟨r.offset, ?_, ?_⟩⟩
  all_goals simp [index, hr, hr', hkey]

section Renumbering

variable {ids ids' : List ElementId} {n n' : Nat} {f : Fin n → Fin n'}

/-- A numbering that moves the elements of another by `f` moves the rows by `f`. -/
theorem Candidate.exists_number (hids : ids.Nodup) (hids' : ids'.Nodup) (hn : n = ids.length)
    (hf : ∀ (i : Fin n) (e : ElementId), ids[i.val]? = some e → ids'[(f i).val]? = some e)
    {c : Candidate} (hc : c.target ∈ ids) :
    ∃ i : Fin n, (c.row ids).element.toNat = i.val ∧ (c.row ids').element.toNat = (f i).val := by
  let i : Fin n := ⟨ids.idxOf c.target, hn ▸ List.idxOf_lt_length_of_mem hc⟩
  have hi' : ids'[(f i).val]? = some c.target := hf i _ (List.getElem?_idxOf hc)
  refine ⟨i, toNat_element_row hids hc, ?_⟩
  rw [toNat_element_row hids' (List.mem_of_getElem? hi'), idxOf_eq_of_getElem? hids' hi']

theorem UnitRecorder.sortedUses_eq_of_strictMono (hmono : StrictMono f) {us : List Candidate}
    (hf : ∀ c ∈ us, ∃ i : Fin n,
      (c.row ids).element.toNat = i.val ∧ (c.row ids').element.toNat = (f i).val) :
    sortedUses ids us = sortedUses ids' us := by
  refine sortByKey_congr _ ?_
  intro c hc d hd
  obtain ⟨i, hi, hi'⟩ := hf c hc
  obtain ⟨j, hj, hj'⟩ := hf d hd
  rw [UInt32.le_iff_toNat_le, UInt32.le_iff_toNat_le, hi, hi', hj, hj']
  exact hmono.le_iff_le.symm

end Renumbering

namespace PackageBuilder

theorem keepsEntry_unitIndex {p p' : PackageIndex} {ids ids' : List ElementId}
    {f : Fin p.elementCount → Fin p'.elementCount} (hmono : StrictMono f) (u : UnitRecorder)
    {us : List Candidate} (hf : ∀ c ∈ us, ∃ i : Fin p.elementCount,
      (c.row ids).element.toNat = i.val ∧ (c.row ids').element.toNat = (f i).val) :
    p.KeepsEntry p' f (unitIndex ids u us) (unitIndex ids' u us) := by
  -- both entries show the same uses in the same order
  have hrows : UnitRecorder.rows ids' us =
      (UnitRecorder.sortedUses ids us).map (Candidate.row ids') := by
    rw [UnitRecorder.rows_eq, UnitRecorder.sortedUses_eq_of_strictMono hmono hf]
  unfold unitIndex UnitIndex.ofUsages
  rw [UnitRecorder.rows_eq, hrows]
  simp only [List.map_map]
  refine ⟨rfl, rfl, rfl, rfl, rfl, ?_⟩
  rw [List.forall₂_map_left_iff, List.forall₂_map_right_iff, List.forall₂_same]
  intro c hc
  exact hf c ((sortByKey_perm _ _).mem_iff.1 hc)

theorem exists_keepsEntry {b b' : PackageBuilder} {uss uss' : List (List Candidate)}
    (hunits : b.units <+: b'.units) (huss : uss <+: uss')
    {f : Fin (b.index uss).elementCount → Fin (b'.index uss').elementCount} (hmono : StrictMono f)
    (hf : ∀ us ∈ uss, ∀ c ∈ us, ∃ i,
      (c.row b.tables.elements.numbering).element.toNat = i.val ∧
        (c.row b'.tables.elements.numbering).element.toNat = (f i).val)
    {k : Nat} {u : UnitIndex} (hu : (b.index uss).units[k]? = some u) :
    ∃ u', (b'.index uss').units[k]? = some u' ∧
      (b.index uss).KeepsEntry (b'.index uss') f u u' := by
  obtain ⟨recorder, us, hrecorder, hus, rfl⟩ := List.getElem?_zipWith_eq_some.1 hu
  refine ⟨unitIndex b'.tables.elements.numbering recorder us, ?_,
    keepsEntry_unitIndex hmono recorder (hf us (List.mem_of_getElem? hus))⟩
  exact List.getElem?_zipWith_eq_some.2
    ⟨recorder, us, getElem?_mono hunits hrecorder, getElem?_mono huss hus, rfl⟩

end PackageBuilder

theorem FullRun.exists_number {m : Model} {o : Options}
    {units units' : List (Node .compilationUnit)} (h : FullRun m o units)
    (h' : FullRun m o units') {n n' : Nat} {f : Fin n → Fin n'}
    (hn : n = (builderOf m o units).tables.elements.sorted.length)
    (hf : ∀ (i : Fin n) (r : ElementRecord),
      (builderOf m o units).tables.elements.sorted[i.val]? = some r →
        (builderOf m o units').tables.elements.sorted[(f i).val]? = some r)
    {unit : Node .compilationUnit} (hunit : unit ∈ units) {c : Candidate}
    (hc : c ∈ unit.recordedUses m o) :
    ∃ i : Fin n,
      (c.row (builderOf m o units).tables.elements.numbering).element.toNat = i.val ∧
        (c.row (builderOf m o units').tables.elements.numbering).element.toNat = (f i).val := by
  refine Candidate.exists_number ?_ ?_ ?_ ?_ ?_
  · rw [h.numbering_eq]
    exact nodup_numberingOf m o units
  · rw [h'.numbering_eq]
    exact nodup_numberingOf m o units'
  · rw [hn, ElementTable.numbering, List.length_map]
  · intro i e he
    rw [ElementTable.numbering, List.getElem?_map] at he ⊢
    obtain ⟨r, hr, rfl⟩ := Option.map_eq_some_iff.1 he
    rw [hf i r hr, Option.map_some]
  · rw [h.numbering_eq]
    exact target_mem_numberingOf hunit hc

/-- Units that are added leave what the index said: the URIs, the elements in their order, and
the entries but for the numbers of elements. -/
theorem indexUnits_grown {m : Model} {o : Options} {before added : List (Node .compilationUnit)}
    {new : PackageIndex} (h : (indexUnits m o (before ++ added)).1 = .ok new) :
    ∃ old, (indexUnits m o before).1 = .ok old ∧ old.uris <+: new.uris ∧
      old.units.length = before.length ∧
      ∃ f : Fin old.elementCount → Fin new.elementCount, StrictMono f ∧
        (∀ i : Fin old.elementCount, old.KeepsElement new i (f i)) ∧
        ∀ (k : Nat) (u : UnitIndex), old.units[k]? = some u →
          ∃ u', new.units[k]? = some u' ∧ old.KeepsEntry new f u u' := by
  have hroots := roots_of_indexUnits h
  have hran := ran_builderOf_append (o := o) hroots
  have hnew : FullRun m o (before ++ added) := fullRun_of_roots hroots
  have hold : FullRun m o before :=
    fullRun_of_roots fun unit hunit => hroots unit (List.mem_append_left _ hunit)
  obtain rfl := Except.ok.inj (hnew.indexUnits_eq.symm.trans h)
  obtain ⟨f, hmono, hf⟩ := exists_strictMono_of_sublist
    (hran.grown.sorted_sublist hnew.nodup_elementIds)
    ((builderOf m o before).elementCount_index (before.map (Tree.recordedUses m o)))
    ((builderOf m o (before ++ added)).elementCount_index
      ((before ++ added).map (Tree.recordedUses m o)))
  refine ⟨_, hold.indexUnits_eq, hran.grown.uris, hold.shows.entries.length_eq.symm, f, hmono,
    ?_, ?_⟩
  · intro i
    have hi := List.getElem?_eq_getElem (i.isLt.trans_eq (PackageBuilder.elementCount_index _ _))
    exact PackageBuilder.keepsElement_index hran.grown hold.traced hi (hf i _ hi)
  · intro k u hu
    obtain ⟨recorders, hrecorders, -⟩ := hran.recorders
    refine PackageBuilder.exists_keepsEntry ⟨recorders, hrecorders.symm⟩ ?_ hmono ?_ hu
    · rw [List.map_append]
      exact List.prefix_append _ _
    · intro us hus c hc
      obtain ⟨unit, hunit, rfl⟩ := List.mem_map.1 hus
      exact hold.exists_number hnew (PackageBuilder.elementCount_index _ _) hf hunit hc

namespace Sample

/-- The model with the name of `B` at a lesser offset than that of `A`. -/
def earlyModel : Model :=
  model.replace ⟨5⟩ { kind := .classType, name := "B", nameOffset := 3, enclosing := some ⟨4⟩ }

def early : PackageIndex where
  libraryUris := [1]
  unitUris := [1]
  elementUnits := [0]
  elementOffsets := [6]
  uris := ["b", "a"]
  units := [.ofUsages 0 0 [⟨0, .isExtendedBy, ⟨16, 1⟩⟩, ⟨0, .isReferencedBy, ⟨18, 1⟩⟩]]

def earlyGrown : PackageIndex where
  libraryUris := [0, 1]
  unitUris := [0, 1]
  elementUnits := [1, 0]
  elementOffsets := [3, 6]
  uris := ["b", "a"]
  units := [
    .ofUsages 0 0 [⟨1, .isExtendedBy, ⟨16, 1⟩⟩, ⟨1, .isReferencedBy, ⟨18, 1⟩⟩],
    .ofUsages 1 1 [⟨0, .isExtendedBy, ⟨16, 1⟩⟩, ⟨1, .isReferencedBy, ⟨18, 1⟩⟩]]

theorem indexUnits_eq_early : (indexUnits earlyModel {} [unitB]).1 = .ok early :=
  indexUnits_eq_ok (by decide +kernel) (by decide +kernel)

theorem indexUnits_eq_earlyGrown :
    (indexUnits earlyModel {} ([unitB] ++ [unitA])).1 = .ok earlyGrown :=
  indexUnits_eq_ok (by decide +kernel) (by decide +kernel)

end Sample

/-- The unit that is added brings an element that comes before the one there was. -/
theorem indexUnits_grown_sample :
    (indexUnits Sample.earlyModel {} ([Sample.unitB] ++ [Sample.unitA])).1 =
        .ok Sample.earlyGrown ∧
      ∃ f : Fin Sample.early.elementCount → Fin Sample.earlyGrown.elementCount,
        (∀ i, (f i).val = 1) ∧ (∀ i, Sample.early.KeepsElement Sample.earlyGrown i.val (f i).val) ∧
        ∃ u u', Sample.early.units[0]? = some u ∧ Sample.earlyGrown.units[0]? = some u' ∧
          u.elements = [0, 0] ∧ u'.elements = [1, 1] ∧
          Sample.early.KeepsEntry Sample.earlyGrown f u u' := by
  refine ⟨Sample.indexUnits_eq_earlyGrown, ?_⟩
  obtain ⟨old, hold, -, -, f, -, helements, hentries⟩ :=
    indexUnits_grown Sample.indexUnits_eq_earlyGrown
  obtain rfl := Except.ok.inj (hold.symm.trans Sample.indexUnits_eq_early)
  obtain ⟨u', hu', hentry⟩ := hentries 0 _ rfl
  obtain rfl := Option.some.inj hu'
  refine ⟨f, ?_, helements, _, _, rfl, rfl, rfl, rfl, hentry⟩
  -- the element keeps its offset, which is in the second place now
  have hplace : ∀ i : Fin Sample.early.elementCount,
      Sample.early.elementOffsets[i.val]? = some 6 := by decide
  have hplace' : ∀ i : Fin Sample.earlyGrown.elementCount,
      Sample.earlyGrown.elementOffsets[i.val]? = some 6 → i.val = 1 := by decide
  intro i
  obtain ⟨offset, hoffset, hoffset'⟩ := (helements i).offset
  rw [hplace] at hoffset
  obtain rfl := Option.some.inj hoffset
  exact hplace' (f i) hoffset'

end UsageIndex
