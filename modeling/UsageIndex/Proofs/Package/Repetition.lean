import UsageIndex.Proofs.Package.Growth

/-!
Indexing a unit once more. All that the unit mentions is in the tables by then, so the second
walk finds every URI and every element and adds none; the index grows by a copy of the unit's
entry and by nothing else.
-/

set_option autoImplicit false

namespace UsageIndex

theorem UriTable.intern_of_mem {t : UriTable} {uri : String} (h : uri ∈ t.uris) :
    (t.intern uri).2 = t := by
  have huris := t.uris_intern uri
  rw [if_pos h] at huris
  cases t
  exact congrArg UriTable.mk huris

theorem UriTable.mem_of_get? {t : UriTable} {id : UriId} {uri : String}
    (h : t.get? id = some uri) : uri ∈ t.uris :=
  List.mem_of_getElem? h

theorem UriTable.Traced.runOn_enterUnit_known {m : Model} {t : UriTable} (h : t.Traced m)
    {unit : ElementId} {pair : String × String} (hunit : m.unitUris unit = .ok pair)
    {key : UnitKey} (hkey : t.pair? key = some pair) :
    (UriTable.enterUnit m unit).runOn t = (.ok key, t) := by
  obtain ⟨hlibrary, hown⟩ := pair?_eq_some_iff.1 hkey
  have hsame : ((t.intern pair.1).2.intern pair.2).2 = t := by
    rw [intern_of_mem (mem_of_get? hlibrary), intern_of_mem (mem_of_get? hown)]
  obtain ⟨key', t', hrun, -, -, hkey'⟩ := h.enterUnit hunit
  have htable : t' = t := by
    have hboth := hrun.symm.trans (runOn_enterUnit_ok hunit t)
    rw [hsame] at hboth
    exact congrArg Prod.snd hboth
  subst htable
  rw [hrun, pair?_inj h.nodup hkey' hkey]

theorem Tables.runOn_enter_known {m : Model} {t : Tables} {e : ElementId}
    (he : e ∈ t.elements.elementIds) : ∃ handle, (enter m e).runOn t = (.ok handle, t) := by
  obtain ⟨handle, -, hrun⟩ | ⟨hnew, -⟩ | ⟨hnew, -⟩ := t.enter_cases m e
  · exact ⟨handle, hrun⟩
  · exact absurd he hnew
  · exact absurd he hnew

namespace Recording

variable {m : Model} {r : Recording}

theorem tables_add_known (h : r.tables.Traced m) {c : Candidate}
    (hc : (m.homeUris c.target).isOk → c.target ∈ r.tables.elements.elementIds) :
    (r.add m c).2.tables = r.tables := by
  cases hhome : m.homeUris c.target with
  | error fault => rw [add, h.runOn_enter_error hhome]
  | ok pair =>
    obtain ⟨handle, hrun⟩ := Tables.runOn_enter_known (m := m) (hc (by rw [hhome]; rfl))
    rw [add, hrun]

theorem tables_addAll_known (h : r.tables.Traced m) {cs : List Candidate}
    (hcs : ∀ c ∈ m.indexedUses cs, c.target ∈ r.tables.elements.elementIds) :
    (r.addAll m cs).tables = r.tables := by
  induction cs generalizing r with
  | nil => rfl
  | cons c cs ih =>
    -- one step leaves the tables as they are, so the rest meets the same tables
    have hstep : (if m.isFiltered c.target then r else (r.add m c).2).tables = r.tables := by
      by_cases hf : m.isFiltered c.target = true
      · rw [if_pos hf]
      · rw [if_neg hf]
        refine tables_add_known h fun hhome => hcs c ?_
        simp [Model.indexedUses, Model.isIndexed, hf, hhome]
    have hrest : ∀ d ∈ m.indexedUses cs, d.target ∈ r.tables.elements.elementIds := by
      intro d hd
      refine hcs d ?_
      obtain ⟨hmem, hindexed⟩ := List.mem_filter.1 hd
      exact List.mem_filter.2 ⟨List.mem_cons_of_mem _ hmem, hindexed⟩
    have hrun := ih (r := if m.isFiltered c.target then r else (r.add m c).2) (hstep ▸ h)
      (by rwa [hstep])
    exact hrun.trans hstep

end Recording

namespace PackageBuilder

/-- A unit whose URIs and uses are known leaves the tables of the builder as they are. -/
theorem indexUnit_known {m : Model} {o : Options} {b : PackageBuilder} (hm : b.model = m)
    (ho : b.options = o) (h : b.tables.Traced m) {unit : Node .compilationUnit}
    {pair : String × String} (hunit : m.unitUris unit.unitElement = .ok pair) {key : UnitKey}
    (hkey : b.tables.uris.pair? key = some pair)
    (huses : ∀ c ∈ unit.recordedUses m o, c.target ∈ b.tables.elements.elementIds) :
    ∃ b' recorder, b.indexUnit unit = .ok b' ∧ b'.tables = b.tables ∧
      b'.units = b.units ++ [recorder] ∧ recorder.key = key := by
  subst hm ho
  let start : Recording := { tables := b.tables, unit := { key }, log := b.log }
  have htables : (start.contribute b.model b.options unit).tables = b.tables := by
    rw [Recording.contribute_eq]
    exact Recording.tables_addAll_known h huses
  have hown : (start.contribute b.model b.options unit).unit.key = key :=
    (Recording.gains_contribute (r := start) h b.options unit).key
  exact ⟨_, _, indexUnit_eq_ok_iff.2 (runOn_enterUnit_ok (h.uris.runOn_enterUnit_known hunit hkey)),
    htables, rfl, hown⟩

theorem index_repeated {b b' : PackageBuilder} (htables : b'.tables = b.tables)
    {recorder : UnitRecorder} (hunits : b'.units = b.units ++ [recorder])
    {uss : List (List Candidate)} (hlength : b.units.length = uss.length) (us : List Candidate) :
    b'.index (uss ++ [us]) = { b.index uss with
      units := (b.index uss).units ++ [unitIndex b.tables.elements.numbering recorder us] } := by
  simp only [index, htables, hunits, List.zipWith_append hlength]
  rfl

end PackageBuilder

theorem ran_builderOf {m : Model} {o : Options} {units : List (Node .compilationUnit)}
    (h : ∀ unit ∈ units, ∃ pair, m.unitUris unit.unitElement = .ok pair) :
    (builderOf m o []).Ran m o units (builderOf m o units) :=
  @ran_builderOf_append m o [] units h

theorem builderOf_repeated {m : Model} {o : Options} {units : List (Node .compilationUnit)}
    (hroots : ∀ unit ∈ units, ∃ pair, m.unitUris unit.unitElement = .ok pair) {k : Nat}
    {unit : Node .compilationUnit} (hk : units[k]? = some unit) {recorder : UnitRecorder}
    (hrecorder : (builderOf m o units).units[k]? = some recorder) :
    (builderOf m o (units ++ [unit])).tables = (builderOf m o units).tables ∧
      ∃ copy, (builderOf m o (units ++ [unit])).units = (builderOf m o units).units ++ [copy] ∧
        copy.key = recorder.key := by
  have hrun : FullRun m o units := fullRun_of_roots hroots
  have hran := ran_builderOf (o := o) hroots
  obtain ⟨_, hsame, hholds⟩ := forall₂_getElem? hrun.recorders hk
  obtain rfl := Option.some.inj (hsame.symm.trans hrecorder)
  obtain ⟨pair, hunit, hkey⟩ := hholds.uris
  -- the elements of the table are those that the units use, this one among them
  have huses : ∀ c ∈ unit.recordedUses m o,
      c.target ∈ (builderOf m o units).tables.elements.elementIds := by
    intro c hc
    rw [hrun.elements]
    exact mem_mentioned.2 ⟨unit, List.mem_of_getElem? hk, c, hc, rfl⟩
  obtain ⟨b', copy, hindex, htables, hunits, hcopy⟩ := PackageBuilder.indexUnit_known hran.model
    hran.options hrun.traced hunit hkey huses
  have hb' : builderOf m o (units ++ [unit]) = b' := by
    rw [builderOf, PackageBuilder.indexAll_append hrun.finished, PackageBuilder.indexAll, hindex]
    rfl
  rw [hb']
  exact ⟨htables, copy, hunits, hcopy⟩

/-- A unit that is indexed once more adds a copy of its entry and nothing else. -/
theorem indexUnits_repeated {m : Model} {o : Options} {units : List (Node .compilationUnit)}
    {p : PackageIndex} (h : (indexUnits m o units).1 = .ok p) {k : Nat}
    {unit : Node .compilationUnit} (hk : units[k]? = some unit) :
    ∃ entry, p.units[k]? = some entry ∧
      (indexUnits m o (units ++ [unit])).1 = .ok { p with units := p.units ++ [entry] } := by
  have hroots := roots_of_indexUnits h
  have hrun : FullRun m o units := fullRun_of_roots hroots
  have hagain : FullRun m o (units ++ [unit]) := by
    refine fullRun_of_roots fun other hother => hroots other ?_
    rcases List.mem_append.1 hother with hold | hnew
    · exact hold
    · exact List.mem_singleton.1 hnew ▸ List.mem_of_getElem? hk
  obtain rfl := Except.ok.inj (hrun.indexUnits_eq.symm.trans h)
  obtain ⟨recorder, hrecorder, -⟩ := forall₂_getElem? hrun.recorders hk
  obtain ⟨htables, copy, hunits, hkey⟩ := builderOf_repeated hroots hk hrecorder
  have hlength : (builderOf m o units).units.length =
      (units.map (Tree.recordedUses m o)).length := by
    rw [List.length_map, hrun.recorders.length_eq]
  refine ⟨_, List.getElem?_zipWith_eq_some.2
    ⟨recorder, unit.recordedUses m o, hrecorder, by simp [hk], rfl⟩, ?_⟩
  -- the copy has the same key and the same uses, so it has the same entry
  rw [hagain.indexUnits_eq, List.map_append, List.map_singleton,
    PackageBuilder.index_repeated htables hunits hlength]
  simp only [PackageBuilder.unitIndex, hkey]

/-- The third entry is the first again. -/
theorem indexUnits_repeated_sample :
    (indexUnits Sample.model {} [Sample.unitA, Sample.unitB]).1 = .ok Sample.index ∧
      [Sample.unitA, Sample.unitB][0]? = some Sample.unitA ∧
      ∃ entry, Sample.index.units[0]? = some entry ∧ entry.elements = [0, 1] ∧
        (indexUnits Sample.model {} [Sample.unitA, Sample.unitB, Sample.unitA]).1 =
          .ok { Sample.index with units := Sample.index.units ++ [entry] } := by
  refine ⟨Sample.indexUnits_eq, rfl, ?_⟩
  obtain ⟨entry, hentry, hindex⟩ := indexUnits_repeated Sample.indexUnits_eq (k := 0) rfl
  obtain rfl := Option.some.inj hentry
  exact ⟨_, rfl, rfl, hindex⟩

end UsageIndex
