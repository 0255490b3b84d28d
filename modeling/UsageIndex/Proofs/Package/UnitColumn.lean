import UsageIndex.Proofs.Package.Elements

/-!
The units of the elements of an index. A unit enters the table with the first element that lies
in it and never without one, so the numbers in the column of units have no gaps; and a unit is
known by the URIs of its library and of itself, so elements have the same unit just if they
agree in both.
-/

set_option autoImplicit false

namespace UsageIndex

theorem ElementTable.internUnit_new {t : ElementTable} {key : UnitKey} (h : key ∉ t.units) :
    t.internUnit key =
      (UInt32.ofNat t.units.length, { t with units := t.units ++ [key] }) := by
  simp [internUnit, List.idxOf?_eq_none_iff.2 h]

theorem ElementTable.internUnit_of_mem {t : ElementTable} {key : UnitKey} (h : key ∈ t.units) :
    (t.internUnit key).2 = t := by
  obtain ⟨i, hi⟩ := Option.isSome_iff_exists.1 (List.isSome_idxOf?.2 h)
  rw [internUnit, hi]

namespace Tables

variable {m : Model} {t : Tables}

def UnitsUsed (t : Tables) : Prop :=
  ∀ i < t.elements.units.length, ∃ r ∈ t.elements.records, r.unit.toNat = i

/-- A unit is appended only together with a record of it. -/
theorem UnitsUsed.appended (h : t.UnitsUsed) {e : ElementId} {element : Element} {key : UnitKey}
    {uris : UriTable}
    (hbound : (t.appended e element key uris).2.elements.units.length ≤ UInt32.size) :
    (t.appended e element key uris).2.UnitsUsed := by
  intro i hi
  simp only [Tables.appended, ElementTable.insert] at hi hbound ⊢
  by_cases hold : i < t.elements.units.length
  · obtain ⟨r, hr, hunit⟩ := h i hold
    exact ⟨r, List.mem_append_left _ (t.elements.records_internUnit key ▸ hr), hunit⟩
  · have hnew : key ∉ t.elements.units := by
      intro hmem
      rw [ElementTable.units_internUnit, if_pos hmem] at hi
      exact hold hi
    rw [ElementTable.internUnit_new hnew] at hi hbound ⊢
    simp only [List.length_append, List.length_singleton] at hi hbound
    refine ⟨_, List.mem_append_right _ (List.mem_singleton_self _), ?_⟩
    rw [toNat_ofNat_of_lt (by omega)]
    omega

theorem Reached.unitsUsed (h : t.Reached m) : t.UnitsUsed := by
  induction h with
  | empty =>
    intro i hi
    cases hi
  | unit _ _ ih => exact ih
  | @element t t' e handle h he ih =>
    have hrun := InPlace.outcome_eq_ok_iff.1 he
    have hbound := (Reached.element h he).traced.units_length_le
    obtain ⟨_, -, hfound⟩ | ⟨-, fault, -, hfault⟩ |
      ⟨-, element, unit, pair, key, uris, -, -, -, -, hnew⟩ := t.enter_cases m e
    · cases hfound.symm.trans hrun
      exact ih
    · cases hfault.symm.trans hrun
    · cases hnew.symm.trans hrun
      exact ih.appended hbound

theorem Traced.unit_eq_iff (h : t.Traced m) {r r' : ElementRecord}
    (hr : r ∈ t.elements.records) (hr' : r' ∈ t.elements.records) :
    r.unit = r'.unit ↔
      PackageBuilder.unitKey t.elements r = PackageBuilder.unitKey t.elements r' := by
  constructor
  · intro hunit
    rw [PackageBuilder.unitKey, PackageBuilder.unitKey, hunit]
  · intro hkey
    obtain ⟨_, hat, -⟩ := h.unitKey hr
    obtain ⟨_, hat', -⟩ := h.unitKey hr'
    rw [hkey] at hat
    exact UInt32.toNat_inj.1 (toNat_eq_of_getElem? h.units_nodup hat' hat)

end Tables

namespace PackageIndex

/-- The columns say at this place what the table has recorded: the unit of an element, and the
URIs by which the unit is known, which are those of the element's home. -/
structure ShowsRecord (m : Model) (t : Tables) (p : PackageIndex) (i : Nat) (r : ElementRecord)
    (pair : String × String) : Prop where
  recorded : r ∈ t.elements.records
  home : m.homeUris r.element = .ok pair
  key : t.uris.pair? (PackageBuilder.unitKey t.elements r) = some pair
  uris : p.uris = t.uris.uris
  unit : p.elementUnits[i]? = some r.unit
  libraryId : p.libraryUris[i]? = some (PackageBuilder.unitKey t.elements r).library.index
  unitId : p.unitUris[i]? = some (PackageBuilder.unitKey t.elements r).unit.index

/-- The column of units is a key without gaps: its numbers are those below some bound, and two
elements have the same one just if they agree in the numbers of both URIs, and just if they agree
in the URIs themselves, which are those of their homes. -/
structure KeyedByUnit (m : Model) (number : Nat → ElementId → Prop) (p : PackageIndex) : Prop where
  dense : ∃ n, ∀ k, (∃ unit ∈ p.elementUnits, unit.toNat = k) ↔ k < n
  complete : ∀ i < p.elementCount, ∃ e unit pair, number i e ∧ m.homeUris e = .ok pair ∧
    p.elementUnits[i]? = some unit ∧
    p.elementLibraryUri? i = some pair.1 ∧ p.elementUnitUri? i = some pair.2
  byIds : ∀ i < p.elementCount, ∀ j < p.elementCount,
    p.elementUnits[i]? = p.elementUnits[j]? ↔
      p.libraryUris[i]? = p.libraryUris[j]? ∧ p.unitUris[i]? = p.unitUris[j]?
  byUris : ∀ i < p.elementCount, ∀ j < p.elementCount,
    p.elementUnits[i]? = p.elementUnits[j]? ↔
      p.elementLibraryUri? i = p.elementLibraryUri? j ∧
        p.elementUnitUri? i = p.elementUnitUri? j

variable {m : Model} {t : Tables} {p : PackageIndex} {i j : Nat} {r r' : ElementRecord}
  {pair pair' : String × String}

theorem ShowsRecord.library (h : p.ShowsRecord m t i r pair) :
    p.elementLibraryUri? i = some pair.1 := by
  rw [elementLibraryUri?, h.libraryId, Option.bind_some, uri?, h.uris]
  exact (UriTable.pair?_eq_some_iff.1 h.key).1

theorem ShowsRecord.unitUri (h : p.ShowsRecord m t i r pair) :
    p.elementUnitUri? i = some pair.2 := by
  rw [elementUnitUri?, h.unitId, Option.bind_some, uri?, h.uris]
  exact (UriTable.pair?_eq_some_iff.1 h.key).2

theorem ShowsRecord.byIds (ht : t.Traced m) (h : p.ShowsRecord m t i r pair)
    (h' : p.ShowsRecord m t j r' pair') :
    p.elementUnits[i]? = p.elementUnits[j]? ↔
      p.libraryUris[i]? = p.libraryUris[j]? ∧ p.unitUris[i]? = p.unitUris[j]? := by
  simp only [h.unit, h'.unit, h.libraryId, h'.libraryId, h.unitId, h'.unitId, Option.some.injEq]
  rw [ht.unit_eq_iff h.recorded h'.recorded]
  generalize PackageBuilder.unitKey t.elements r = key
  generalize PackageBuilder.unitKey t.elements r' = key'
  obtain ⟨⟨library⟩, ⟨unit⟩⟩ := key
  obtain ⟨⟨library'⟩, ⟨unit'⟩⟩ := key'
  simp

theorem ShowsRecord.byUris (ht : t.Traced m) (h : p.ShowsRecord m t i r pair)
    (h' : p.ShowsRecord m t j r' pair') :
    p.elementUnits[i]? = p.elementUnits[j]? ↔
      p.elementLibraryUri? i = p.elementLibraryUri? j ∧
        p.elementUnitUri? i = p.elementUnitUri? j := by
  simp only [h.unit, h'.unit, h.library, h'.library, h.unitUri, h'.unitUri, Option.some.injEq]
  rw [ht.unit_eq_iff h.recorded h'.recorded, ← Prod.ext_iff]
  constructor
  · intro hkey
    have hsame := h.key
    rw [hkey, h'.key] at hsame
    exact (Option.some.inj hsame).symm
  · rintro rfl
    exact UriTable.pair?_inj ht.uris.nodup h.key h'.key

end PackageIndex

namespace FullRun

variable {m : Model} {o : Options} {units : List (Node .compilationUnit)}

theorem exists_showsRecord (h : FullRun m o units) {i : Nat}
    (hi : i < ((builderOf m o units).index (units.map (Tree.recordedUses m o))).elementCount) :
    ∃ r pair, (builderOf m o units).tables.elements.assignIds.Numbers i r.element ∧
      ((builderOf m o units).index (units.map (Tree.recordedUses m o))).ShowsRecord m
        (builderOf m o units).tables i r pair := by
  rw [PackageIndex.elementCount, PackageBuilder.index, List.length_map] at hi
  have hr := List.getElem?_eq_getElem hi
  generalize (builderOf m o units).tables.elements.sorted[i] = r at hr
  have hmem : r ∈ (builderOf m o units).tables.elements.records :=
    (sortByKey_perm _ _).mem_iff.1 (List.mem_of_getElem? hr)
  obtain ⟨-, -, pair, -, -, hhome, hat⟩ := h.traced.records r hmem
  obtain ⟨-, hkey⟩ := Tables.unitKey_of_home? hat
  refine ⟨r, pair, ?_, hmem, hhome, hkey, rfl, ?_, ?_, ?_⟩
  · rw [ElementTable.numbers_assignIds h.nodup_elementIds, ElementTable.numbering,
      List.getElem?_map, hr, Option.map_some]
  · simp [PackageBuilder.index, hr]
  · simp [PackageBuilder.index, hr]
  · simp [PackageBuilder.index, hr]

theorem mem_elementUnits_iff (h : FullRun m o units) {k : Nat} :
    (∃ unit ∈ ((builderOf m o units).index (units.map (Tree.recordedUses m o))).elementUnits,
      unit.toNat = k) ↔ k < (builderOf m o units).tables.elements.units.length := by
  have hsorted := sortByKey_perm (·.offset) (builderOf m o units).tables.elements.records
  constructor
  · rintro ⟨unit, hunit, rfl⟩
    obtain ⟨r, hr, rfl⟩ := List.mem_map.1 hunit
    obtain ⟨_, hat, -⟩ := h.traced.unitKey (hsorted.mem_iff.1 hr)
    exact (List.getElem?_eq_some_iff.1 hat).1
  · intro hk
    obtain ⟨r, hr, hunit⟩ := h.reached.unitsUsed k hk
    exact ⟨r.unit, List.mem_map_of_mem (hsorted.mem_iff.2 hr), hunit⟩

theorem keyedByUnit (h : FullRun m o units) :
    ((builderOf m o units).index (units.map (Tree.recordedUses m o))).KeyedByUnit m
      (builderOf m o units).tables.elements.assignIds.Numbers where
  dense := ⟨_, fun _ => h.mem_elementUnits_iff⟩
  complete := by
    intro i hi
    obtain ⟨r, pair, hnumber, hrow⟩ := h.exists_showsRecord hi
    exact ⟨r.element, r.unit, pair, hnumber, hrow.home, hrow.unit, hrow.library, hrow.unitUri⟩
  byIds := by
    intro i hi j hj
    obtain ⟨r, pair, -, hrow⟩ := h.exists_showsRecord hi
    obtain ⟨r', pair', -, hrow'⟩ := h.exists_showsRecord hj
    exact hrow.byIds h.traced hrow'
  byUris := by
    intro i hi j hj
    obtain ⟨r, pair, -, hrow⟩ := h.exists_showsRecord hi
    obtain ⟨r', pair', -, hrow'⟩ := h.exists_showsRecord hj
    exact hrow.byUris h.traced hrow'

end FullRun

/-- The column of units of a finished index is a key without gaps for the URIs of the elements'
libraries and units. -/
theorem keyedByUnit_of_indexUnits {m : Model} {o : Options}
    {units : List (Node .compilationUnit)} {p : PackageIndex}
    (h : (indexUnits m o units).1 = .ok p) :
    p.KeyedByUnit m (builderOf m o units).tables.elements.assignIds.Numbers := by
  have hrun : FullRun m o units := fullRun_of_roots (roots_of_indexUnits h)
  obtain rfl := Except.ok.inj (hrun.indexUnits_eq.symm.trans h)
  exact hrun.keyedByUnit

namespace Sample

/-- Two libraries that share the source of a part: both see a class at the same offset of it, and
the first has one more there. -/
def partsModel : Model := ⟨[
  { kind := .library, name := "", nameOffset := 0, sourceUri := some "a",
    definingUnit := some ⟨1⟩ },
  { kind := .compilationUnit, name := "", nameOffset := 0, sourceUri := some "a",
    enclosing := some ⟨0⟩ },
  { kind := .compilationUnit, name := "", nameOffset := 0, sourceUri := some "p",
    enclosing := some ⟨0⟩ },
  { kind := .classType, name := "X", nameOffset := 6, enclosing := some ⟨2⟩ },
  { kind := .classType, name := "Z", nameOffset := 20, enclosing := some ⟨2⟩ },
  { kind := .library, name := "", nameOffset := 0, sourceUri := some "b" },
  { kind := .compilationUnit, name := "", nameOffset := 0, sourceUri := some "p",
    enclosing := some ⟨5⟩ },
  { kind := .classType, name := "X", nameOffset := 6, enclosing := some ⟨6⟩ }]⟩

def partsUnitX : Node .compilationUnit :=
  unit ⟨1⟩ ⟨⟨"A", 6⟩, none⟩ ⟨⟨"X", 16⟩, some ⟨7⟩⟩ ⟨⟨"X", 18⟩, some ⟨3⟩⟩

def partsUnitZ : Node .compilationUnit :=
  unit ⟨1⟩ ⟨⟨"A", 6⟩, none⟩ ⟨⟨"Z", 16⟩, some ⟨4⟩⟩ ⟨⟨"X", 18⟩, some ⟨3⟩⟩

def partsIndex : PackageIndex where
  libraryUris := [1, 0, 0]
  unitUris := [2, 2, 2]
  elementUnits := [0, 1, 1]
  elementOffsets := [6, 6, 20]
  uris := ["a", "b", "p"]
  units := [
    .ofUsages 0 0 [⟨0, .isExtendedBy, ⟨16, 1⟩⟩, ⟨1, .isReferencedBy, ⟨18, 1⟩⟩],
    .ofUsages 0 0 [⟨1, .isReferencedBy, ⟨18, 1⟩⟩, ⟨2, .isExtendedBy, ⟨16, 1⟩⟩]]

theorem indexUnits_eq_parts :
    (indexUnits partsModel {} [partsUnitX, partsUnitZ]).1 = .ok partsIndex :=
  indexUnits_eq_ok (by decide +kernel) (by decide +kernel)

end Sample

/-- The two classes at one offset of one source differ in their libraries and so in their units;
two classes of one library share a unit. -/
theorem keyedByUnit_of_indexUnits_sample :
    (indexUnits Sample.partsModel {} [Sample.partsUnitX, Sample.partsUnitZ]).1 =
        .ok Sample.partsIndex ∧
      Sample.partsIndex.elementUnits[0]? ≠ Sample.partsIndex.elementUnits[1]? ∧
      Sample.partsIndex.elementUnits[1]? = Sample.partsIndex.elementUnits[2]? ∧
      Sample.partsIndex.KeyedByUnit Sample.partsModel
        (builderOf Sample.partsModel {}
          [Sample.partsUnitX, Sample.partsUnitZ]).tables.elements.assignIds.Numbers := by
  have hkeyed := keyedByUnit_of_indexUnits Sample.indexUnits_eq_parts
  refine ⟨Sample.indexUnits_eq_parts, ?_, ?_, hkeyed⟩
  · rw [ne_eq, hkeyed.byUris 0 (by decide) 1 (by decide)]
    decide
  · rw [hkeyed.byUris 1 (by decide) 2 (by decide)]
    decide

end UsageIndex
