import UsageIndex.Proofs.Package.Calls

/-!
Assembling cannot fail. Whatever calls were made on a builder, every unit number and every
handle in it can be looked up, so there is an index; its columns fit together, all numbers in
them are in range, and each unit's elements ascend.
-/

set_option autoImplicit false

namespace UsageIndex

namespace PackageIndex

structure Consistent (p : PackageIndex) : Prop where
  libraryUris : p.libraryUris.length = p.elementCount
  unitUris : p.unitUris.length = p.elementCount
  elementUnits : p.elementUnits.length = p.elementCount
  uriIds : ∀ id ∈ p.libraryUris ++ p.unitUris, id.toNat < p.uris.length
  columns : ∀ u ∈ p.units,
    u.kinds.length = u.size ∧ u.offsets.length = u.size ∧ u.lengths.length = u.size
  elementIds : ∀ u ∈ p.units, ∀ id ∈ u.elements, id.toNat < p.elementCount
  ascending : ∀ u ∈ p.units, u.elements.Pairwise (· ≤ ·)

theorem isAscending_iff (ids : List UInt32) :
    isAscending ids = true ↔ ids.Pairwise (· ≤ ·) := by
  induction ids with
  | nil => simp [isAscending]
  | cons a rest ih =>
    cases rest with
    | nil => simp [isAscending]
    | cons b rest =>
      rw [isAscending, Bool.and_eq_true, ih, decide_eq_true_eq, List.pairwise_cons (a := a)]
      refine and_congr_left fun hrest => ⟨?_, fun h => h b List.mem_cons_self⟩
      intro hab c hc
      rcases List.mem_cons.1 hc with rfl | hmem
      · exact hab
      · exact UInt32.le_trans hab ((List.pairwise_cons.1 hrest).1 c hmem)

/-- The check sees the number of URIs as a word, which it is in an index of a model. -/
theorem isConsistent_iff {p : PackageIndex} (h : p.uris.length < UInt32.size) :
    p.isConsistent = true ↔ p.Consistent := by
  simp only [isConsistent, UnitIndex.isConsistent, Bool.and_eq_true, beq_iff_eq, List.all_eq_true,
    decide_eq_true_eq, UInt32.lt_iff_toNat_lt, toNat_ofNat_of_lt h, isAscending_iff, and_assoc]
  constructor
  · rintro ⟨hlibrary, hunit, helement, huris, hunits⟩
    refine ⟨hlibrary, hunit, helement, huris, ?_, ?_, ?_⟩
    · intro u hu
      obtain ⟨hkinds, hoffsets, hlengths, -⟩ := hunits u hu
      exact ⟨hkinds, hoffsets, hlengths⟩
    · intro u hu
      obtain ⟨-, -, -, hids, -⟩ := hunits u hu
      exact hids
    · intro u hu
      obtain ⟨-, -, -, -, hascending⟩ := hunits u hu
      exact hascending
  · intro hp
    refine ⟨hp.libraryUris, hp.unitUris, hp.elementUnits, hp.uriIds, fun u hu => ?_⟩
    obtain ⟨hkinds, hoffsets, hlengths⟩ := hp.columns u hu
    exact ⟨hkinds, hoffsets, hlengths, hp.elementIds u hu, hp.ascending u hu⟩

end PackageIndex

theorem UriTable.Traced.length_le_size {m : Model} {t : UriTable} (h : t.Traced m) :
    t.uris.length ≤ m.size := by
  refine h.length_le_of_lt ?_
  intro id uri hid
  obtain ⟨element, hget, -⟩ := Model.sourceUri_eq_ok_iff.1 hid
  exact Model.lt_size_of_get? hget

theorem UriTable.lt_length_of_get? {t : UriTable} {id : UriId} {uri : String}
    (h : t.get? id = some uri) : id.index.toNat < t.uris.length :=
  (List.getElem?_eq_some_iff.1 h).1

/-- Whatever assembling looks up is there: the unit of each element and the final number of each
handle. -/
structure PackageBuilder.Closed (b : PackageBuilder) : Prop where
  units : ∀ r ∈ b.tables.elements.assignIds.ordered,
    r.unit.toNat < b.tables.elements.assignIds.units.length
  handles : ∀ u ∈ b.units, ∀ relation ∈ u.relations,
    ∃ id, b.tables.elements.assignIds.finalId? relation.target = some id

namespace FullRun

variable {m : Model} {o : Options} {units : List (Node .compilationUnit)}

theorem closed (h : FullRun m o units) : (builderOf m o units).Closed where
  units := by
    intro r hr
    rw [ElementTable.ordered_eq_sorted, ElementTable.sorted_assignIds h.nodup_elementIds] at hr
    obtain ⟨old, hold, rfl⟩ := List.mem_map.1 hr
    obtain ⟨-, hkey, -⟩ := h.traced.unitKey ((sortByKey_perm _ _).mem_iff.1 hold)
    exact (List.getElem?_eq_some_iff.1 hkey).1
  handles := by
    intro u hu relation hrelation
    obtain ⟨record, hrecord⟩ := h.exists_record hu hrelation
    exact ⟨_, ElementTable.finalId?_assignIds h.nodup_elementIds hrecord⟩

theorem exists_unitIndex (h : FullRun m o units) {u : UnitIndex}
    (hu : u ∈ ((builderOf m o units).index (units.map (Tree.recordedUses m o))).units) :
    ∃ recorder us, u = PackageBuilder.unitIndex (numberingOf m o units) recorder us := by
  have hentries : List.Forall₂ (fun (_ : Node .compilationUnit) u =>
      ∃ recorder us, u = PackageBuilder.unitIndex (numberingOf m o units) recorder us) units
      ((builderOf m o units).index (units.map (Tree.recordedUses m o))).units := by
    rw [PackageBuilder.index, h.numbering_eq]
    exact forall₂_zipWith_map (h.recorders.imp fun _ recorder _ => ⟨recorder, _, rfl⟩)
  obtain ⟨unit, -, hunit⟩ := forall₂_mem hentries.flip hu
  exact hunit

theorem uriIds (h : FullRun m o units) :
    ∀ id ∈ ((builderOf m o units).index (units.map (Tree.recordedUses m o))).libraryUris ++
        ((builderOf m o units).index (units.map (Tree.recordedUses m o))).unitUris,
      id.toNat < (builderOf m o units).tables.uris.uris.length := by
  intro id hid
  rcases List.mem_append.1 hid with hmem | hmem
  · obtain ⟨r, hr, rfl⟩ := List.mem_map.1 hmem
    obtain ⟨pair, -, hpair⟩ := h.traced.unitKey ((sortByKey_perm _ _).mem_iff.1 hr)
    exact UriTable.lt_length_of_get? (UriTable.pair?_eq_some_iff.1 hpair).1
  · obtain ⟨r, hr, rfl⟩ := List.mem_map.1 hmem
    obtain ⟨pair, -, hpair⟩ := h.traced.unitKey ((sortByKey_perm _ _).mem_iff.1 hr)
    exact UriTable.lt_length_of_get? (UriTable.pair?_eq_some_iff.1 hpair).2

theorem consistent (h : FullRun m o units) :
    ((builderOf m o units).index (units.map (Tree.recordedUses m o))).Consistent where
  libraryUris := by simp [PackageIndex.elementCount, PackageBuilder.index]
  unitUris := by simp [PackageIndex.elementCount, PackageBuilder.index]
  elementUnits := by simp [PackageIndex.elementCount, PackageBuilder.index]
  uriIds := h.uriIds
  columns := by
    intro u hu
    obtain ⟨recorder, us, rfl⟩ := h.exists_unitIndex hu
    simp [PackageBuilder.unitIndex, UnitIndex.ofUsages, UnitIndex.size]
  elementIds := by
    intro u hu id hid
    refine h.shows.lt_elementCount_iff.2 ⟨u, hu, ?_⟩
    obtain ⟨recorder, us, rfl⟩ := h.exists_unitIndex hu
    obtain ⟨row, hrow, rfl⟩ := List.mem_map.1 hid
    refine ⟨row, ?_, rfl⟩
    rw [PackageBuilder.unitIndex, UnitIndex.usages_ofUsages]
    exact hrow
  ascending := by
    intro u hu
    obtain ⟨recorder, us, rfl⟩ := h.exists_unitIndex hu
    exact List.pairwise_map.2 (pairwise_sortByKey _ _)

end FullRun

/-- Whatever calls were made, assembling looks up nothing that is not there and gives a
consistent index; it has an entry for each call that succeeded, with URIs of the index. -/
theorem consistent_of_calls {m : Model} (hm : m.size < UInt32.size) (o : Options)
    (units : List (Node .compilationUnit)) {results : List (Except Fault Unit)}
    {b : PackageBuilder}
    (hcalls : PackageBuilder.enterEach { model := m, options := o } units = (results, b)) :
    b.Closed ∧ ∃ p, b.assemble = .ok p ∧ p.Consistent ∧ p.isConsistent = true ∧
      (∀ u ∈ p.units, u.libraryUri.toNat < p.uris.length ∧ u.unitUri.toNat < p.uris.length) ∧
      p.units.length = results.countP (·.isOk) := by
  obtain ⟨taken, hrun, rfl, hcount⟩ := exists_fullRun_of_enterEach hcalls
  have hassemble := PackageBuilder.assemble_eq hrun.nodup_elementIds hrun.uses
  have huris := Nat.lt_of_le_of_lt hrun.traced.uris.length_le_size hm
  refine ⟨hrun.closed, _, hassemble, hrun.consistent,
    (PackageIndex.isConsistent_iff huris).2 hrun.consistent, ?_, ?_⟩
  · intro u hu
    obtain ⟨unit, -, hshows⟩ := forall₂_mem hrun.shows.entries.flip hu
    obtain ⟨pair, -, hlibrary, hunit⟩ := hshows.uris
    exact ⟨(List.getElem?_eq_some_iff.1 hlibrary).1, (List.getElem?_eq_some_iff.1 hunit).1⟩
  · rw [← hrun.shows.entries.length_eq]
    exact hcount

/-- One of the three calls fails, and the index has two entries. -/
theorem consistent_of_calls_sample :
    Sample.brokenModel.size < UInt32.size ∧
      ∃ results b p, PackageBuilder.enterEach { model := Sample.brokenModel }
          [Sample.unitA, Sample.brokenUnit, Sample.unitB] = (results, b) ∧
        b.Closed ∧ b.assemble = .ok p ∧ p.Consistent ∧ p.isConsistent = true ∧
        p.units.length = 2 := by
  have hsize : Sample.brokenModel.size < UInt32.size := by decide
  obtain ⟨hclosed, p, hp, hconsistent, hcheck, -, hcount⟩ := consistent_of_calls hsize {}
    [Sample.unitA, Sample.brokenUnit, Sample.unitB] Prod.mk.eta.symm
  rw [Sample.enterEach_broken] at hcount
  exact ⟨hsize, _, _, p, Prod.mk.eta.symm, hclosed, hp, hconsistent, hcheck, hcount⟩

end UsageIndex
