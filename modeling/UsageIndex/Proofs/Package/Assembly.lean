import UsageIndex.Proofs.Package.Numbering

/-!
What a package index shows. An index that was put together from units lists the elements that
the units use, by the offsets of their names, with their units and libraries; and it has one
entry for each unit, with the unit's URIs and uses. Everything in it is settled by the model,
the options and the units.
-/

set_option autoImplicit false

namespace UsageIndex

def Model.nameOffset (m : Model) (e : ElementId) : UInt32 :=
  ((m.get? e).map Element.nameOffset).getD 0

def numberingOf (m : Model) (o : Options) (units : List (Node .compilationUnit)) :
    List ElementId :=
  sortByKey m.nameOffset (mentioned m o units)

theorem numberingOf_perm (m : Model) (o : Options) (units : List (Node .compilationUnit)) :
    (numberingOf m o units).Perm (mentioned m o units) :=
  sortByKey_perm _ _

theorem nodup_mentioned (m : Model) (o : Options) (units : List (Node .compilationUnit)) :
    (mentioned m o units).Nodup :=
  nodup_eraseDups _

theorem nodup_numberingOf (m : Model) (o : Options) (units : List (Node .compilationUnit)) :
    (numberingOf m o units).Nodup :=
  (numberingOf_perm m o units).nodup_iff.2 (nodup_mentioned m o units)

theorem mem_numberingOf {m : Model} {o : Options} {units : List (Node .compilationUnit)}
    {e : ElementId} : e ∈ numberingOf m o units ↔ e ∈ mentioned m o units :=
  (numberingOf_perm m o units).mem_iff

theorem target_mem_numberingOf {m : Model} {o : Options} {units : List (Node .compilationUnit)}
    {unit : Node .compilationUnit} (hunit : unit ∈ units) {c : Candidate}
    (hc : c ∈ unit.recordedUses m o) : c.target ∈ numberingOf m o units :=
  mem_numberingOf.2 (mem_mentioned.2 ⟨unit, hunit, c, hc, rfl⟩)

namespace PackageIndex

def elementLibraryUri? (p : PackageIndex) (i : Nat) : Option String :=
  (p.libraryUris[i]?).bind p.uri?

def elementUnitUri? (p : PackageIndex) (i : Nat) : Option String := (p.unitUris[i]?).bind p.uri?

/-- The columns say at this place what the model says of the element: the offset of its name,
the source of its unit, and the source of what encloses the unit, if anything does. -/
def Describes (m : Model) (p : PackageIndex) (i : Nat) (e : ElementId) : Prop :=
  ∃ element unit unitElement unitUri libraryUri,
    m.get? e = some element ∧ p.elementOffsets[i]? = some element.nameOffset ∧
    m.enclosingUnit e = .ok unit ∧ m.get? unit = some unitElement ∧
    unitElement.sourceUri = some unitUri ∧ p.elementUnitUri? i = some unitUri ∧
    (match unitElement.enclosing with
      | none => some unitUri
      | some library => (m.get? library).bind Element.sourceUri) = some libraryUri ∧
    p.elementLibraryUri? i = some libraryUri

structure ShowsUnit (m : Model) (o : Options) (ids : List ElementId) (p : PackageIndex)
    (unit : Node .compilationUnit) (u : UnitIndex) : Prop where
  uris : ∃ pair, m.unitUris unit.unitElement = .ok pair ∧
    p.uri? u.libraryUri = some pair.1 ∧ p.uri? u.unitUri = some pair.2
  usages : u.usages = UnitRecorder.rows ids (unit.recordedUses m o)

structure Shows (m : Model) (o : Options) (units : List (Node .compilationUnit))
    (p : PackageIndex) : Prop where
  count : p.elementCount = (mentioned m o units).length
  offsets : p.elementOffsets = (numberingOf m o units).map m.nameOffset
  described : ∀ i e, (numberingOf m o units)[i]? = some e → p.Describes m i e
  entries : List.Forall₂ (p.ShowsUnit m o (numberingOf m o units)) units p.units

end PackageIndex

theorem homeUris_eq_ok {m : Model} {e : ElementId} {pair : String × String}
    (h : m.homeUris e = .ok pair) :
    ∃ unit, m.enclosingUnit e = .ok unit ∧ m.unitUris unit = .ok pair := by
  unfold Model.homeUris at h
  cases hu : m.enclosingUnit e with
  | error fault => simp [hu, bind, Except.bind] at h
  | ok unit => exact ⟨unit, rfl, by simpa [hu, bind, Except.bind] using h⟩

namespace PackageIndex

theorem describes_of_home {m : Model} {p : PackageIndex} {i : Nat} {e : ElementId}
    {element : Element} {pair : String × String} (he : m.get? e = some element)
    (hoffset : p.elementOffsets[i]? = some element.nameOffset) (hhome : m.homeUris e = .ok pair)
    (hlibrary : p.elementLibraryUri? i = some pair.1)
    (hunit : p.elementUnitUri? i = some pair.2) : p.Describes m i e := by
  obtain ⟨libraryUri, unitUri⟩ := pair
  obtain ⟨unit, hu, huris⟩ := homeUris_eq_ok hhome
  obtain ⟨hsource, hcases⟩ := unitUris_eq_ok huris
  obtain ⟨unitElement, hget, huri⟩ := Model.sourceUri_eq_ok_iff.1 hsource
  refine ⟨element, unit, unitElement, unitUri, libraryUri, he, hoffset, hu, hget, huri, hunit, ?_,
    hlibrary⟩
  rw [hget, Option.bind_some] at hcases
  obtain ⟨hnone, rfl⟩ | ⟨library, hsome, hl⟩ := hcases
  · rw [hnone]
  · obtain ⟨libraryElement, hlget, hluri⟩ := Model.sourceUri_eq_ok_iff.1 hl
    rw [hsome]
    exact Option.bind_eq_some_iff.2 ⟨libraryElement, hlget, hluri⟩

theorem showsUnit_of_holds {m : Model} {o : Options} {t : Tables} {p : PackageIndex}
    (hp : p.uris = t.uris.uris) {ids : List ElementId} {unit : Node .compilationUnit}
    {u : UnitRecorder} (hu : u.Holds m o t unit) :
    p.ShowsUnit m o ids unit (PackageBuilder.unitIndex ids u (unit.recordedUses m o)) where
  uris := by
    obtain ⟨pair, hpair, hkey⟩ := hu.uris
    obtain ⟨hl, hun⟩ := UriTable.pair?_eq_some_iff.1 hkey
    refine ⟨pair, hpair, ?_, ?_⟩
    · rw [uri?, hp]
      exact hl
    · rw [uri?, hp]
      exact hun
  usages := UnitIndex.usages_ofUsages _ _ _

end PackageIndex

namespace FullRun

variable {m : Model} {o : Options} {units : List (Node .compilationUnit)}

theorem nodup_elementIds (h : FullRun m o units) :
    (builderOf m o units).tables.elements.elementIds.Nodup :=
  h.traced.elements_nodup

theorem nameOffset_of_mem (h : FullRun m o units) {r : ElementRecord}
    (hr : r ∈ (builderOf m o units).tables.elements.records) :
    m.nameOffset r.element = r.offset := by
  obtain ⟨-, element, -, he, ho, -⟩ := h.traced.records r hr
  rw [Model.nameOffset, he, ho]
  rfl

theorem numbering_eq (h : FullRun m o units) :
    (builderOf m o units).tables.elements.numbering = numberingOf m o units := by
  have hmap := map_sortByKey (·.offset) m.nameOffset (·.element) fun r hr => h.nameOffset_of_mem hr
  rw [numberingOf, ← h.elements]
  exact hmap

theorem uses (h : FullRun m o units) :
    List.Forall₂ (fun (u : UnitRecorder) us =>
        u.uses? (builderOf m o units).tables.elements = some us)
      (builderOf m o units).units (units.map (Tree.recordedUses m o)) :=
  List.forall₂_map_right_iff.2 (h.recorders.flip.imp fun _ _ hu => hu.uses)

theorem exists_record (h : FullRun m o units) {u : UnitRecorder}
    (hu : u ∈ (builderOf m o units).units) {relation : Relation}
    (hrelation : relation ∈ u.relations) :
    ∃ r, (builderOf m o units).tables.elements.get? relation.target = some r := by
  obtain ⟨us, -, hus⟩ := forall₂_mem h.uses hu
  rw [UnitRecorder.uses?, mapM_eq_some_iff] at hus
  obtain ⟨c, -, hc⟩ := forall₂_mem hus hrelation
  obtain ⟨r, hr, -⟩ := Option.map_eq_some_iff.1 hc
  exact ⟨r, hr⟩

theorem indexUnits_eq (h : FullRun m o units) :
    (indexUnits m o units).1 =
      .ok ((builderOf m o units).index (units.map (Tree.recordedUses m o))) := by
  rw [indexUnits, h.finished]
  exact PackageBuilder.assemble_eq h.nodup_elementIds h.uses

theorem describes (h : FullRun m o units) {i : Nat} {r : ElementRecord}
    (hr : (builderOf m o units).tables.elements.sorted[i]? = some r) :
    ((builderOf m o units).index (units.map (Tree.recordedUses m o))).Describes m i r.element := by
  have hmem : r ∈ (builderOf m o units).tables.elements.records :=
    (sortByKey_perm _ _).mem_iff.1 (List.mem_of_getElem? hr)
  obtain ⟨-, element, pair, he, ho, hhome, hkey⟩ := h.traced.records r hmem
  obtain ⟨-, hpair⟩ := Tables.unitKey_of_home? hkey
  obtain ⟨hl, hu⟩ := UriTable.pair?_eq_some_iff.1 hpair
  refine PackageIndex.describes_of_home he ?_ hhome ?_ ?_
  · simp [PackageBuilder.index, hr, ho]
  · simp only [PackageIndex.elementLibraryUri?, PackageBuilder.index, List.getElem?_map, hr,
      Option.map_some, Option.bind_some]
    exact hl
  · simp only [PackageIndex.elementUnitUri?, PackageBuilder.index, List.getElem?_map, hr,
      Option.map_some, Option.bind_some]
    exact hu

theorem entries (h : FullRun m o units) :
    List.Forall₂
      (((builderOf m o units).index (units.map (Tree.recordedUses m o))).ShowsUnit m o
        (numberingOf m o units)) units
      ((builderOf m o units).index (units.map (Tree.recordedUses m o))).units := by
  have hunits : ((builderOf m o units).index (units.map (Tree.recordedUses m o))).units =
      List.zipWith (PackageBuilder.unitIndex (numberingOf m o units)) (builderOf m o units).units
        (units.map (Tree.recordedUses m o)) := by
    rw [← h.numbering_eq]
    rfl
  rw [hunits]
  exact forall₂_zipWith_map (h.recorders.imp fun _ _ hu => PackageIndex.showsUnit_of_holds rfl hu)

theorem shows (h : FullRun m o units) :
    ((builderOf m o units).index (units.map (Tree.recordedUses m o))).Shows m o units where
  count := by
    have hlen := (sortByKey_perm (·.offset) (builderOf m o units).tables.elements.records).length_eq
    rw [← h.elements]
    simpa [PackageIndex.elementCount, PackageBuilder.index, ElementTable.elementIds,
      ElementTable.sorted] using hlen
  offsets := by
    rw [← h.numbering_eq, ElementTable.numbering, List.map_map]
    refine List.map_congr_left fun r hr => ?_
    exact (h.nameOffset_of_mem ((sortByKey_perm _ _).mem_iff.1 hr)).symm
  described := by
    intro i e he
    rw [← h.numbering_eq, ElementTable.numbering, List.getElem?_map] at he
    obtain ⟨r, hr, rfl⟩ := Option.map_eq_some_iff.1 he
    exact h.describes hr
  entries := h.entries

end FullRun

/-- The index of given units can be found by reduction. -/
theorem indexUnits_eq_ok {m : Model} {o : Options} {units : List (Node .compilationUnit)}
    {p : PackageIndex} (hroots : ∀ unit ∈ units, (m.unitUris unit.unitElement).isOk = true)
    (hp : (builderOf m o units).indexByInsertion (units.map (Tree.recordedUses m o)) = p) :
    (indexUnits m o units).1 = .ok p := by
  have hrun : FullRun m o units := by
    refine fullRun_of_roots fun unit hunit => ?_
    have hok := hroots unit hunit
    cases hpair : m.unitUris unit.unitElement with
    | ok pair => exact ⟨pair, rfl⟩
    | error fault =>
      rw [hpair] at hok
      cases hok
  rw [hrun.indexUnits_eq, PackageBuilder.index_eq_indexByInsertion, hp]

theorem shows_of_indexUnits {m : Model} {o : Options} {units : List (Node .compilationUnit)}
    {p : PackageIndex} (h : (indexUnits m o units).1 = .ok p) : p.Shows m o units := by
  have hrun : FullRun m o units := fullRun_of_roots (roots_of_indexUnits h)
  obtain rfl := Except.ok.inj (hrun.indexUnits_eq.symm.trans h)
  exact hrun.shows

end UsageIndex
