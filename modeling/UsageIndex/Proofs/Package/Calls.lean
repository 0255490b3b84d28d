import UsageIndex.Proofs.Package.Units

/-!
Calls on one builder, some of which fail. A call fails before it has changed anything, so a
failed call might as well not have been made: what the builder holds in the end, and the index
that is assembled from it, come from the calls that succeed.
-/

set_option autoImplicit false

namespace UsageIndex

namespace PackageBuilder

/-- The units whose calls succeed when the builder is given these units one after the other. -/
def succeeding (b : PackageBuilder) (units : List (Node .compilationUnit)) :
    List (Node .compilationUnit) :=
  ((units.zip (b.enterEach units).1).filter fun call => call.2.isOk).map Prod.fst

variable {b b' : PackageBuilder} {unit : Node .compilationUnit}
  {rest : List (Node .compilationUnit)}

theorem runOn_enterUnit_cases (b : PackageBuilder) (unit : Node .compilationUnit) :
    (∃ fault, b.model.unitUris unit.unitElement = .error fault ∧
      (enterUnit unit).runOn b = (.error fault, b)) ∨
    (∃ pair b', b.model.unitUris unit.unitElement = .ok pair ∧
      (enterUnit unit).runOn b = (.ok (), b') ∧ b'.model = b.model) := by
  cases hu : b.model.unitUris unit.unitElement with
  | error fault => exact .inl ⟨fault, rfl, runOn_enterUnit_error hu⟩
  | ok pair =>
    have hkey := UriTable.runOn_enterUnit_ok hu b.tables.uris
    exact .inr ⟨pair, _, rfl, runOn_enterUnit_ok hkey, rfl⟩

theorem enterEach_cons {result : Except Fault Unit}
    (h : (enterUnit unit).runOn b = (result, b')) :
    b.enterEach (unit :: rest) = (result :: (b'.enterEach rest).1, (b'.enterEach rest).2) := by
  rw [enterEach, h]

theorem succeeding_cons_ok (h : (enterUnit unit).runOn b = (.ok (), b')) :
    b.succeeding (unit :: rest) = unit :: b'.succeeding rest := by
  rw [succeeding, enterEach_cons h]
  rfl

theorem succeeding_cons_error {fault : Fault}
    (h : (enterUnit unit).runOn b = (.error fault, b')) :
    b.succeeding (unit :: rest) = b'.succeeding rest := by
  rw [succeeding, enterEach_cons h]
  rfl

theorem length_enterEach (b : PackageBuilder) (units : List (Node .compilationUnit)) :
    (b.enterEach units).1.length = units.length := by
  induction units generalizing b with
  | nil => rfl
  | cons unit rest ih => rw [enterEach_cons rfl, List.length_cons, List.length_cons, ih]

theorem enterEach_take_of_error {units : List (Node .compilationUnit)} {k : Nat} {fault : Fault}
    (h : (b.enterEach units).1[k]? = some (.error fault)) :
    (b.enterEach (units.take (k + 1))).2 = (b.enterEach (units.take k)).2 := by
  induction units generalizing b k with
  | nil => simp [enterEach] at h
  | cons unit rest ih =>
    cases k with
    | zero =>
      obtain ⟨fault', -, hcall⟩ | ⟨pair, b', -, hcall, -⟩ := runOn_enterUnit_cases b unit
      · rw [List.take_succ_cons, enterEach_cons hcall, List.take_zero, List.take_zero]
      · simp [enterEach_cons hcall] at h
    | succ k =>
      rw [List.take_succ_cons, List.take_succ_cons, enterEach_cons rfl, enterEach_cons rfl]
      exact ih (by simpa [enterEach_cons rfl] using h)

theorem enterEach_succeeding (b : PackageBuilder) (units : List (Node .compilationUnit)) :
    b.enterEach (b.succeeding units) =
      ((b.enterEach units).1.filter (·.isOk), (b.enterEach units).2) := by
  induction units generalizing b with
  | nil => rfl
  | cons unit rest ih =>
    obtain ⟨fault, -, hcall⟩ | ⟨pair, b', -, hcall, -⟩ := runOn_enterUnit_cases b unit
    · rw [succeeding_cons_error hcall, ih, enterEach_cons hcall]
      rfl
    · rw [succeeding_cons_ok hcall, enterEach_cons hcall, enterEach_cons hcall, ih]
      rfl

theorem indexAll_succeeding (b : PackageBuilder) (units : List (Node .compilationUnit)) :
    b.indexAll (b.succeeding units) = ((b.enterEach units).2, none) := by
  induction units generalizing b with
  | nil => rfl
  | cons unit rest ih =>
    obtain ⟨fault, -, hcall⟩ | ⟨pair, b', -, hcall, -⟩ := runOn_enterUnit_cases b unit
    · rw [succeeding_cons_error hcall, ih, enterEach_cons hcall]
    · rw [succeeding_cons_ok hcall, indexAll, indexUnit_eq_ok_iff.2 hcall, enterEach_cons hcall]
      exact ih b'

theorem length_succeeding (b : PackageBuilder) (units : List (Node .compilationUnit)) :
    (b.succeeding units).length = (b.enterEach units).1.countP (·.isOk) := by
  rw [← length_enterEach b, enterEach_succeeding, List.countP_eq_length_filter]

end PackageBuilder

/-- Whatever calls were made, they leave what a run over the units that were taken leaves. -/
theorem exists_fullRun_of_enterEach {m : Model} {o : Options}
    {units : List (Node .compilationUnit)} {results : List (Except Fault Unit)}
    {b : PackageBuilder}
    (h : PackageBuilder.enterEach { model := m, options := o } units = (results, b)) :
    ∃ taken, FullRun m o taken ∧ builderOf m o taken = b ∧
      taken.length = results.countP (·.isOk) := by
  have hrun := PackageBuilder.indexAll_succeeding { model := m, options := o } units
  have hcount := PackageBuilder.length_succeeding { model := m, options := o } units
  rw [h] at hrun hcount
  refine ⟨_, fullRun_of_roots (PackageBuilder.roots_of_indexAll (b := { model := m, options := o })
    rfl rfl (Tables.traced_empty m) ?_), ?_, hcount⟩
  · rw [hrun]
  · rw [builderOf, hrun]

/-- Failed calls are invisible: each leaves the builder as it was, and without them the other
calls have the same results and lead to the same index. -/
theorem failedCalls_invisible (b : PackageBuilder) (units : List (Node .compilationUnit)) :
    (∀ (k : Nat) (fault : Fault), (b.enterEach units).1[k]? = some (.error fault) →
      (b.enterEach (units.take (k + 1))).2 = (b.enterEach (units.take k)).2) ∧
    (b.enterEach (b.succeeding units)).1 = (b.enterEach units).1.filter (·.isOk) ∧
    (b.enterEach (b.succeeding units)).2.assemble = (b.enterEach units).2.assemble := by
  refine ⟨fun k fault h => PackageBuilder.enterEach_take_of_error h, ?_, ?_⟩
  · rw [PackageBuilder.enterEach_succeeding]
  · rw [PackageBuilder.enterEach_succeeding]

namespace Sample

/-- The model with one more unit, which has a URI but lies in a class that has none. -/
def brokenModel : Model := ⟨model.elements ++ [
  { kind := .compilationUnit, name := "", nameOffset := 0, sourceUri := some "c",
    enclosing := some ⟨2⟩ }]⟩

def brokenUnit : Node .compilationUnit := .emptyUnit ⟨6⟩

theorem enterEach_broken :
    (PackageBuilder.enterEach { model := brokenModel } [unitA, brokenUnit, unitB]).1 =
      [.ok (), .error (.missingSourceUri ⟨2⟩), .ok ()] := by decide +kernel

end Sample

/-- The unit in the middle fails, and the index is that of the other two. -/
theorem failedCalls_invisible_sample :
    (PackageBuilder.enterEach { model := Sample.brokenModel }
        [Sample.unitA, Sample.brokenUnit, Sample.unitB]).1 =
      [.ok (), .error (.missingSourceUri ⟨2⟩), .ok ()] ∧
    (PackageBuilder.enterEach { model := Sample.brokenModel }
        [Sample.unitA, Sample.brokenUnit]).2 =
      (PackageBuilder.enterEach { model := Sample.brokenModel } [Sample.unitA]).2 ∧
    (PackageBuilder.enterEach { model := Sample.brokenModel }
        [Sample.unitA, Sample.brokenUnit, Sample.unitB]).2.assemble = .ok Sample.index := by
  have hassemble : (PackageBuilder.enterEach { model := Sample.brokenModel }
      [Sample.unitA, Sample.unitB]).2.assemble = .ok Sample.index :=
    PackageBuilder.assemble_eq_ok
      ([Sample.unitA, Sample.unitB].map (Tree.recordedUses Sample.brokenModel {}))
      (by decide +kernel) (by decide +kernel) (by decide +kernel)
  have hsucceeding : PackageBuilder.succeeding { model := Sample.brokenModel }
      [Sample.unitA, Sample.brokenUnit, Sample.unitB] = [Sample.unitA, Sample.unitB] := by
    rw [PackageBuilder.succeeding, Sample.enterEach_broken]
    rfl
  obtain ⟨hfailed, -, hsame⟩ := failedCalls_invisible { model := Sample.brokenModel }
    [Sample.unitA, Sample.brokenUnit, Sample.unitB]
  rw [hsucceeding, hassemble] at hsame
  have hfault : (PackageBuilder.enterEach { model := Sample.brokenModel }
      [Sample.unitA, Sample.brokenUnit, Sample.unitB]).1[1]? =
        some (.error (.missingSourceUri ⟨2⟩)) := by
    rw [Sample.enterEach_broken]
    rfl
  exact ⟨Sample.enterEach_broken, hfailed 1 _ hfault, hsame.symm⟩

end UsageIndex
