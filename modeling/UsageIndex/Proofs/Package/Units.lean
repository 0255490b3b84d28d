import UsageIndex.Proofs.Package.Elements

/-!
The entries of a finished index. The rows of a unit are the uses that recording the unit alone
gives, sorted by the numbers of their elements; nothing is lost or added, and the uses of one
element keep their order. So the other units of the package leave no mark on an entry but the
numbers.
-/

set_option autoImplicit false

namespace UsageIndex

def ElementTable.element? (t : ElementTable) (i : UInt32) : Option ElementId :=
  (t.records.find? (·.id == some i)).map (·.element)

/-- The use that a row shows, with the element in place of the number. -/
def Usage.use? (t : ElementTable) (row : Usage) : Option Candidate :=
  (t.element? row.element).map fun e => ⟨e, row.kind, row.location⟩

def UnitIndex.uses? (t : ElementTable) (u : UnitIndex) : Option (List Candidate) :=
  u.usages.mapM (·.use? t)

/-- These are the uses that are recorded for the unit, and those of one element stand in the
order of recording. -/
structure KeepsUses (recorded shown : List Candidate) : Prop where
  perm : shown.Perm recorded
  order : ∀ e, shown.filter (·.target = e) = recorded.filter (·.target = e)

theorem ElementTable.element?_eq_some {t : ElementTable} {i : UInt32} {e : ElementId}
    (h : t.Numbers i.toNat e) (hunique : ∀ e', t.Numbers i.toNat e' → e' = e) :
    t.element? i = some e := by
  obtain ⟨r, hr, rfl, hid⟩ := h
  obtain ⟨j, hj, hji⟩ := Option.map_eq_some_iff.1 hid
  obtain rfl := UInt32.toNat_inj.1 hji
  cases hfind : t.records.find? (·.id == some j) with
  | none => simpa [hj] using List.find?_eq_none.1 hfind r hr
  | some found =>
    have hsame : found.id = some j := by simpa using List.find?_some hfind
    rw [element?, hfind, Option.map_some]
    refine congrArg some (hunique _ ⟨found, List.mem_of_find?_eq_some hfind, rfl, ?_⟩)
    rw [hsame, Option.map_some]

theorem FullRun.element? {m : Model} {o : Options} {units : List (Node .compilationUnit)}
    (h : FullRun m o units) {i : UInt32} {e : ElementId}
    (he : (numberingOf m o units)[i.toNat]? = some e) :
    (builderOf m o units).tables.elements.assignIds.element? i = some e := by
  refine ElementTable.element?_eq_some (h.numbers_iff.2 he) ?_
  intro e' he'
  exact Option.some.inj ((h.numbers_iff.1 he').symm.trans he)

namespace UnitRecorder

def sortedUses (ids : List ElementId) (us : List Candidate) : List Candidate :=
  sortByKey (fun c => (c.row ids).element) us

theorem rows_eq (ids : List ElementId) (us : List Candidate) :
    rows ids us = (sortedUses ids us).map (Candidate.row ids) :=
  (map_sortByKey _ _ _ fun _ _ => rfl).symm

theorem keepsUses_sortedUses (ids : List ElementId) (us : List Candidate) :
    KeepsUses us (sortedUses ids us) where
  perm := sortByKey_perm _ _
  order := by
    intro e
    -- the uses of one element share their number, so sorting does not part them
    refine filter_sortByKey_of_imp _ (k := UInt32.ofNat (ids.idxOf e)) ?_ us
    intro c hc
    rw [Candidate.row, of_decide_eq_true hc]

end UnitRecorder

theorem FullRun.uses?_of_showsUnit {m : Model} {o : Options}
    {units : List (Node .compilationUnit)} (h : FullRun m o units) {p : PackageIndex}
    {unit : Node .compilationUnit} (hunit : unit ∈ units) {u : UnitIndex}
    (hu : p.ShowsUnit m o (numberingOf m o units) unit u) :
    u.uses? (builderOf m o units).tables.elements.assignIds =
      some (UnitRecorder.sortedUses (numberingOf m o units) (unit.recordedUses m o)) := by
  rw [UnitIndex.uses?, hu.usages, UnitRecorder.rows_eq, mapM_eq_some_iff,
    List.forall₂_map_left_iff, List.forall₂_same]
  intro c hc
  have hrecorded : c ∈ unit.recordedUses m o := (sortByKey_perm _ _).mem_iff.1 hc
  have hmem := target_mem_numberingOf hunit hrecorded
  have hnumber : (numberingOf m o units)[(c.row (numberingOf m o units)).element.toNat]? =
      some c.target := by
    rw [Candidate.toNat_element_row (nodup_numberingOf m o units) hmem]
    exact List.getElem?_idxOf hmem
  exact Option.map_eq_some_iff.2 ⟨c.target, h.element? hnumber, rfl⟩

/-- The entry has the URIs of the unit and shows the uses that recording the unit alone gives,
which are also those that were recorded for it among the others. -/
structure PackageBuilder.KeepsUnit (m : Model) (o : Options) (b : PackageBuilder)
    (p : PackageIndex) (unit : Node .compilationUnit) (recorder : UnitRecorder)
    (u : UnitIndex) : Prop where
  uris : ∃ pair, m.unitUris unit.unitElement = .ok pair ∧
    p.uri? u.libraryUri = some pair.1 ∧ p.uri? u.unitUri = some pair.2
  uses : ∃ recorded shown,
    (∀ key, (({ tables := {}, unit := { key } } : Recording).contribute m o unit).uses? =
      some recorded) ∧
    recorder.uses? b.tables.elements = some recorded ∧
    u.uses? b.tables.elements.assignIds = some shown ∧ KeepsUses recorded shown

/-- Each unit has its entry, and the entry keeps what was recorded for the unit. -/
theorem keepsUnit_of_indexUnits {m : Model} {o : Options} {units : List (Node .compilationUnit)}
    {p : PackageIndex} (h : (indexUnits m o units).1 = .ok p) :
    p.units.length = units.length ∧
      ∀ (k : Nat) (unit : Node .compilationUnit), units[k]? = some unit →
        ∃ recorder u, (builderOf m o units).units[k]? = some recorder ∧ p.units[k]? = some u ∧
          (builderOf m o units).KeepsUnit m o p unit recorder u := by
  have hrun : FullRun m o units := fullRun_of_roots (roots_of_indexUnits h)
  have hshows := shows_of_indexUnits h
  refine ⟨hshows.entries.length_eq.symm, ?_⟩
  intro k unit hk
  obtain ⟨u, hu, hentry⟩ := forall₂_getElem? hshows.entries hk
  obtain ⟨recorder, hrecorder, hholds⟩ := forall₂_getElem? hrun.recorders hk
  refine ⟨recorder, u, hrecorder, hu, hentry.uris, unit.recordedUses m o, _, ?_, hholds.uses,
    hrun.uses?_of_showsUnit (List.mem_of_getElem? hk) hentry,
    UnitRecorder.keepsUses_sortedUses _ _⟩
  intro key
  exact Recording.uses?_contribute (Tables.traced_empty m) key o unit

namespace Sample

def reversed : PackageIndex where
  libraryUris := [1, 0]
  unitUris := [1, 0]
  elementUnits := [0, 1]
  elementOffsets := [6, 6]
  uris := ["b", "a"]
  units := [
    .ofUsages 0 0 [⟨0, .isExtendedBy, ⟨16, 1⟩⟩, ⟨0, .isReferencedBy, ⟨18, 1⟩⟩],
    .ofUsages 1 1 [⟨0, .isReferencedBy, ⟨18, 1⟩⟩, ⟨1, .isExtendedBy, ⟨16, 1⟩⟩]]

theorem indexUnits_eq_reversed : (indexUnits model {} [unitB, unitA]).1 = .ok reversed :=
  indexUnits_eq_ok (by decide +kernel) (by decide +kernel)

end Sample

/-- The rows of the second unit do not stand in the order of recording. -/
theorem keepsUnit_of_indexUnits_sample :
    (indexUnits Sample.model {} [Sample.unitB, Sample.unitA]).1 = .ok Sample.reversed ∧
      ∃ recorder u, Sample.reversed.units[1]? = some u ∧ u.offsets = [18, 16] ∧
        (builderOf Sample.model {} [Sample.unitB, Sample.unitA]).KeepsUnit Sample.model {}
          Sample.reversed Sample.unitA recorder u := by
  refine ⟨Sample.indexUnits_eq_reversed, ?_⟩
  obtain ⟨-, hall⟩ := keepsUnit_of_indexUnits Sample.indexUnits_eq_reversed
  obtain ⟨recorder, u, -, hu, hkeeps⟩ := hall 1 Sample.unitA rfl
  obtain rfl := Option.some.inj hu
  exact ⟨recorder, _, rfl, rfl, hkeeps⟩

end UsageIndex
