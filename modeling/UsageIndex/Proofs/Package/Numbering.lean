import UsageIndex.Proofs.Package.Run

/-!
The final numbers of elements. They are the positions in the list of elements sorted by the
offsets of their names; with them the assembled index has a closed form.
-/

set_option autoImplicit false

namespace UsageIndex

theorem toNat_ofNat_idxOf {ids : List ElementId} (h : ids.Nodup) {e : ElementId} (he : e ∈ ids) :
    (UInt32.ofNat (ids.idxOf e)).toNat = ids.idxOf e :=
  toNat_ofNat_of_lt (Nat.lt_of_lt_of_le (List.idxOf_lt_length_of_mem he) (length_le_of_nodup h))

namespace ElementTable

def sorted (t : ElementTable) : List ElementRecord := sortByKey (·.offset) t.records

def numbering (t : ElementTable) : List ElementId := t.sorted.map (·.element)

def numbered (t : ElementTable) (r : ElementRecord) : ElementRecord :=
  { r with id := some (UInt32.ofNat (t.numbering.idxOf r.element)) }

theorem numbering_perm (t : ElementTable) : t.numbering.Perm t.elementIds :=
  (sortByKey_perm _ t.records).map _

def placed (t : ElementTable) : List (ElementRecord × Nat) :=
  sortByKey (·.1.offset) t.records.zipIdx

theorem order_eq (t : ElementTable) : t.order = t.placed.map Prod.snd := rfl

theorem map_fst_placed (t : ElementTable) : t.placed.map Prod.fst = t.sorted := by
  have hmap := map_sortByKey (fun p : ElementRecord × Nat => p.1.offset) (·.offset) Prod.fst
    (l := t.records.zipIdx) fun _ _ => rfl
  rw [List.zipIdx_map_fst] at hmap
  exact hmap

theorem mem_placed_iff {t : ElementTable} {r : ElementRecord} {i : Nat} :
    (r, i) ∈ t.placed ↔ t.records[i]? = some r := by
  rw [placed, (sortByKey_perm _ _).mem_iff, List.mem_zipIdx_iff_getElem?]

theorem ordered_eq_sorted (t : ElementTable) : t.ordered = t.sorted := by
  have hall : ∀ p ∈ t.placed, t.records[p.2]? = some p.1 := fun _ hp => mem_placed_iff.1 hp
  rw [ordered, order_eq, List.filterMap_map, ← map_fst_placed, ← List.filterMap_eq_map]
  refine List.filterMap_congr ?_
  intro p hp
  simpa using hall p hp

theorem idxOf_order {t : ElementTable} (h : t.elementIds.Nodup) {i : Nat} {r : ElementRecord}
    (hr : t.records[i]? = some r) : t.order.idxOf i = t.numbering.idxOf r.element := by
  have horder : t.order.Nodup := t.order_perm.nodup_iff.2 List.nodup_range
  have hnumbering : t.numbering.Nodup := t.numbering_perm.nodup_iff.2 h
  obtain ⟨j, hj⟩ := List.mem_iff_getElem?.1 (mem_placed_iff.2 hr)
  have hi : t.order[j]? = some i := by simp [order_eq, hj]
  have he : t.numbering[j]? = some r.element := by
    simp [numbering, ← map_fst_placed, hj]
  rw [idxOf_eq_of_getElem? horder hi, idxOf_eq_of_getElem? hnumbering he]

theorem records_assignIds {t : ElementTable} (h : t.elementIds.Nodup) :
    t.assignIds.records = t.records.map t.numbered := by
  have hall : ∀ p ∈ t.records.zipIdx,
      ({ p.1 with id := some (UInt32.ofNat (t.order.idxOf p.2)) } : ElementRecord) =
        t.numbered p.1 := by
    intro p hp
    rw [numbered, idxOf_order h (List.mem_zipIdx_iff_getElem?.1 hp)]
  have hmap : t.records.map t.numbered = t.records.zipIdx.map fun p => t.numbered p.1 := by
    conv_lhs => rw [← List.zipIdx_map_fst 0 t.records, List.map_map]
    rfl
  rw [hmap]
  exact List.map_congr_left hall

theorem sorted_assignIds {t : ElementTable} (h : t.elementIds.Nodup) :
    t.assignIds.sorted = t.sorted.map t.numbered := by
  have hmap := map_sortByKey (fun r : ElementRecord => r.offset) (·.offset) t.numbered
    (l := t.records) fun _ _ => rfl
  rw [sorted, records_assignIds h, ← hmap]
  rfl

theorem finalId?_assignIds {t : ElementTable} (h : t.elementIds.Nodup) {handle : Handle}
    {r : ElementRecord} (hr : t.get? handle = some r) :
    t.assignIds.finalId? handle = some (UInt32.ofNat (t.numbering.idxOf r.element)) := by
  have hget : t.assignIds.get? handle = some (t.numbered r) := by
    rw [get?, records_assignIds h, List.getElem?_map]
    exact Option.map_eq_some_iff.2 ⟨r, hr, rfl⟩
  rw [finalId?, hget]
  rfl

def Numbers (t : ElementTable) (n : Nat) (e : ElementId) : Prop :=
  ∃ r ∈ t.records, r.element = e ∧ r.id.map UInt32.toNat = some n

theorem numbers_assignIds {t : ElementTable} (h : t.elementIds.Nodup) {n : Nat} {e : ElementId} :
    t.assignIds.Numbers n e ↔ t.numbering[n]? = some e := by
  have hnumbering : t.numbering.Nodup := t.numbering_perm.nodup_iff.2 h
  rw [getElem?_eq_some_iff_idxOf hnumbering, t.numbering_perm.mem_iff, Numbers,
    records_assignIds h]
  constructor
  · rintro ⟨r, hr, rfl, hn⟩
    obtain ⟨old, hold, rfl⟩ := List.mem_map.1 hr
    have he : old.element ∈ t.elementIds := List.mem_map_of_mem hold
    refine ⟨he, ?_⟩
    simpa [numbered, toNat_ofNat_idxOf hnumbering (t.numbering_perm.mem_iff.2 he)] using hn
  · rintro ⟨he, rfl⟩
    obtain ⟨r, hr, rfl⟩ := List.mem_map.1 he
    refine ⟨t.numbered r, List.mem_map_of_mem hr, rfl, ?_⟩
    simp [numbered, toNat_ofNat_idxOf hnumbering (t.numbering_perm.mem_iff.2 he)]

end ElementTable

def Candidate.row (ids : List ElementId) (c : Candidate) : Usage :=
  ⟨UInt32.ofNat (ids.idxOf c.target), c.kind, c.location⟩

theorem Candidate.toNat_element_row {ids : List ElementId} (h : ids.Nodup) {c : Candidate}
    (hc : c.target ∈ ids) : (c.row ids).element.toNat = ids.idxOf c.target :=
  toNat_ofNat_idxOf h hc

namespace UnitRecorder

def rows (ids : List ElementId) (us : List Candidate) : List Usage :=
  sortByKey (·.element) (us.map (Candidate.row ids))

theorem assemble_assignIds {t : ElementTable} (h : t.elementIds.Nodup) {u : UnitRecorder}
    {us : List Candidate} (hu : u.uses? t = some us) :
    u.assemble t.assignIds =
      .ok (.ofUsages u.key.library.index u.key.unit.index (rows t.numbering us)) := by
  have hrows : u.relations.mapM (usage t.assignIds) = .ok (us.map (Candidate.row t.numbering)) := by
    rw [uses?, mapM_eq_some_iff] at hu
    refine mapM_eq_ok (List.forall₂_map_right_iff.2 (hu.imp ?_))
    intro r c hc
    obtain ⟨record, hr, rfl⟩ := Option.map_eq_some_iff.1 hc
    rw [usage, ElementTable.finalId?_assignIds h hr]
    rfl
  rw [assemble, hrows]
  rfl

end UnitRecorder

namespace Tables

theorem unitKey_of_home? {t : Tables} {r : ElementRecord} {pair : String × String}
    (h : t.home? r = some pair) :
    t.elements.units[r.unit.toNat]? = some (PackageBuilder.unitKey t.elements r) ∧
      t.uris.pair? (PackageBuilder.unitKey t.elements r) = some pair := by
  obtain ⟨key, hkey, hpair⟩ := Option.bind_eq_some_iff.1 h
  have hunitKey : PackageBuilder.unitKey t.elements r = key := by
    rw [PackageBuilder.unitKey, hkey, Option.getD_some]
  rw [hunitKey]
  exact ⟨hkey, hpair⟩

theorem Traced.unitKey {m : Model} {t : Tables} (h : t.Traced m) {r : ElementRecord}
    (hr : r ∈ t.elements.records) :
    ∃ pair, t.elements.units[r.unit.toNat]? = some (PackageBuilder.unitKey t.elements r) ∧
      t.uris.pair? (PackageBuilder.unitKey t.elements r) = some pair := by
  obtain ⟨-, -, pair, -, -, -, hhome⟩ := h.records r hr
  exact ⟨pair, unitKey_of_home? hhome⟩

end Tables

namespace PackageBuilder

def unitIndex (ids : List ElementId) (u : UnitRecorder) (us : List Candidate) : UnitIndex :=
  .ofUsages u.key.library.index u.key.unit.index (UnitRecorder.rows ids us)

def index (b : PackageBuilder) (uss : List (List Candidate)) : PackageIndex where
  libraryUris := b.tables.elements.sorted.map fun r => (unitKey b.tables.elements r).library.index
  unitUris := b.tables.elements.sorted.map fun r => (unitKey b.tables.elements r).unit.index
  elementUnits := b.tables.elements.sorted.map (·.unit)
  elementOffsets := b.tables.elements.sorted.map (·.offset)
  uris := b.tables.uris.uris
  units := List.zipWith (unitIndex b.tables.elements.numbering) b.units uss

/-- Assembling cannot fail once the uses of every unit can be read back. -/
theorem assemble_eq {b : PackageBuilder} (h : b.tables.elements.elementIds.Nodup)
    {uss : List (List Candidate)}
    (hu : List.Forall₂ (fun u us => u.uses? b.tables.elements = some us) b.units uss) :
    b.assemble = .ok (b.index uss) := by
  have hunits : b.units.mapM (·.assemble b.tables.elements.assignIds) =
      .ok (List.zipWith (unitIndex b.tables.elements.numbering) b.units uss) := by
    generalize b.units = units at hu
    induction hu with
    | nil => rfl
    | cons hus _ ih =>
      rw [List.mapM_cons, UnitRecorder.assemble_assignIds h hus, ih]
      rfl
  have hordered : b.tables.elements.assignIds.ordered =
      b.tables.elements.sorted.map b.tables.elements.numbered := by
    rw [ElementTable.ordered_eq_sorted, ElementTable.sorted_assignIds h]
  unfold assemble
  simp only [hordered, hunits, List.map_map, bind, Except.bind]
  rfl

/-- The closed form with sorts that can be run by reduction. -/
def indexByInsertion (b : PackageBuilder) (uss : List (List Candidate)) : PackageIndex :=
  let sorted := b.tables.elements.records.insertionSort fun r r' => r.offset ≤ r'.offset
  let unitIndex (u : UnitRecorder) (us : List Candidate) : UnitIndex :=
    .ofUsages u.key.library.index u.key.unit.index
      ((us.map (Candidate.row (sorted.map (·.element)))).insertionSort
        fun row row' => row.element ≤ row'.element)
  { libraryUris := sorted.map fun r => (unitKey b.tables.elements r).library.index
    unitUris := sorted.map fun r => (unitKey b.tables.elements r).unit.index
    elementUnits := sorted.map (·.unit)
    elementOffsets := sorted.map (·.offset)
    uris := b.tables.uris.uris
    units := List.zipWith unitIndex b.units uss }

theorem index_eq_indexByInsertion (b : PackageBuilder) (uss : List (List Candidate)) :
    b.index uss = b.indexByInsertion uss := by
  have hrows (ids : List ElementId) (us : List Candidate) : UnitRecorder.rows ids us =
      (us.map (Candidate.row ids)).insertionSort fun row row' => row.element ≤ row'.element :=
    sortByKey_eq_insertionSort _ _
  have hsorted : b.tables.elements.sorted =
      b.tables.elements.records.insertionSort fun r r' => r.offset ≤ r'.offset :=
    sortByKey_eq_insertionSort _ _
  unfold index unitIndex indexByInsertion
  simp only [hrows, ElementTable.numbering, hsorted]

theorem assemble_eq_ok {b : PackageBuilder} {p : PackageIndex} (uss : List (List Candidate))
    (h : b.tables.elements.elementIds.Nodup)
    (hu : b.units.mapM (·.uses? b.tables.elements) = some uss)
    (hp : b.indexByInsertion uss = p) : b.assemble = .ok p := by
  rw [assemble_eq h (mapM_eq_some_iff.1 hu), index_eq_indexByInsertion, hp]

end PackageBuilder

end UsageIndex
