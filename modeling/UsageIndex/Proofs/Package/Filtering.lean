import UsageIndex.Proofs.Package.Calls

/-!
What is local to a piece of code stays out of an index. However a use leads to its element, by
name, by the supertype of a class, by the field of a parameter, by the library of a directive or
by a redirection, a hidden element gets no record, no relation and no number.
-/

set_option autoImplicit false

namespace UsageIndex

namespace Model

/-- Elements that only the code around them can speak of: local variables, parameters that are
passed by position, and functions declared directly inside code that runs. -/
inductive IsHidden (m : Model) (e : ElementId) : Prop where
  | localVariable {element : Element} (he : m.get? e = some element)
      (hk : element.kind = .localVariable)
  | requiredParameter {element : Element} (he : m.get? e = some element)
      (hk : element.kind = .parameter .required)
  | positionalParameter {element : Element} (he : m.get? e = some element)
      (hk : element.kind = .parameter .positional)
  | localFunction {element outer : Element} {outerId : ElementId} (he : m.get? e = some element)
      (hk : element.kind = .function) (hid : element.enclosing = some outerId)
      (houter : m.get? outerId = some outer)
      (hruns : outer.kind ∈
        [ElementKind.constructor, .method, .getter, .setter, .function])

theorem isExecutable_iff (k : ElementKind) :
    k.isExecutable = true ↔
      k ∈ [ElementKind.constructor, .method, .getter, .setter, .function] := by
  cases k <;> simp [ElementKind.isExecutable]

theorem isLocalFunction_iff {m : Model} {e : ElementId} {element : Element}
    (he : m.get? e = some element) (hk : element.kind = .function) :
    m.isLocalFunction e = true ↔ ∃ outerId outer, element.enclosing = some outerId ∧
      m.get? outerId = some outer ∧
      outer.kind ∈ [ElementKind.constructor, .method, .getter, .setter, .function] := by
  simp only [isLocalFunction, he, hk, beq_self_eq_true, Bool.true_and, ← isExecutable_iff]
  cases hid : element.enclosing with
  | none => simp
  | some outerId => cases houter : m.get? outerId <;> simp [houter]

theorem isFiltered_iff {m : Model} {e : ElementId} : m.isFiltered e = true ↔ m.IsHidden e := by
  constructor
  · intro h
    unfold isFiltered at h
    cases he : m.get? e with
    | none => simp [he] at h
    | some element =>
      simp only [he] at h
      split at h
      · exact .localVariable he ‹_›
      · rcases Bool.or_eq_true_iff.1 h with hk | hk
        · exact .requiredParameter he (beq_iff_eq.1 hk)
        · exact .positionalParameter he (beq_iff_eq.1 hk)
      · rename_i hk
        obtain ⟨outerId, outer, hid, houter, hruns⟩ := (isLocalFunction_iff he hk).1 h
        exact .localFunction he hk hid houter hruns
      · cases h
  · intro h
    cases h with
    | localVariable he hk => simp [isFiltered, he, hk]
    | requiredParameter he hk => simp [isFiltered, he, hk, Element.isPositionalParameter]
    | positionalParameter he hk => simp [isFiltered, he, hk, Element.isPositionalParameter]
    | localFunction he hk hid houter hruns =>
      simp only [isFiltered, he, hk]
      exact (isLocalFunction_iff he hk).2 ⟨_, _, hid, houter, hruns⟩

end Model

theorem not_isHidden_of_recorded {m : Model} {o : Options} {unit : Node .compilationUnit}
    {c : Candidate} (hc : c ∈ unit.recordedUses m o) : ¬ m.IsHidden c.target := by
  intro hhidden
  have hindexed : m.isIndexed c.target = true := (List.mem_filter.1 hc).2
  simp [Model.isIndexed, Model.isFiltered_iff.2 hhidden] at hindexed

namespace FullRun

variable {m : Model} {o : Options} {units : List (Node .compilationUnit)}

theorem not_isHidden_of_mentioned {e : ElementId} (he : e ∈ mentioned m o units) :
    ¬ m.IsHidden e := by
  obtain ⟨unit, -, c, hc, rfl⟩ := mem_mentioned.1 he
  exact not_isHidden_of_recorded hc

theorem not_isHidden_of_record (h : FullRun m o units) {r : ElementRecord}
    (hr : r ∈ (builderOf m o units).tables.elements.records) : ¬ m.IsHidden r.element := by
  have hmem : r.element ∈ mentioned m o units := by
    rw [← h.elements]
    exact List.mem_map_of_mem hr
  exact not_isHidden_of_mentioned hmem

theorem numbered_not_isHidden (h : FullRun m o units) {n : Nat}
    (hn : n < (numberingOf m o units).length) :
    ∃ e, (∀ e', (builderOf m o units).tables.elements.assignIds.Numbers n e' ↔ e' = e) ∧
      (numberingOf m o units)[n]? = some e ∧ ¬ m.IsHidden e := by
  obtain ⟨e, he, hnumber, hget⟩ := h.exists_numbered hn
  exact ⟨e, hnumber, hget, not_isHidden_of_mentioned he⟩

end FullRun

/-- Whatever calls were made, no hidden element is in the table, the target of a relation, an
element of the index or the element of a row. -/
theorem hidden_never_indexed (m : Model) (o : Options) (units : List (Node .compilationUnit))
    (b : PackageBuilder)
    (hcalls : (PackageBuilder.enterEach { model := m, options := o } units).2 = b) :
    (∀ r ∈ b.tables.elements.records, ¬ m.IsHidden r.element) ∧
    (∀ u ∈ b.units, ∀ relation ∈ u.relations, ∃ r,
      b.tables.elements.get? relation.target = some r ∧ ¬ m.IsHidden r.element) ∧
    ∃ p, b.assemble = .ok p ∧
      (∀ n < p.elementCount, ∃ e,
        (∀ e', b.tables.elements.assignIds.Numbers n e' ↔ e' = e) ∧ p.Describes m n e ∧
          ¬ m.IsHidden e) ∧
      (∀ u ∈ p.units, ∀ row ∈ u.usages, ∃ e,
        (∀ e', b.tables.elements.assignIds.Numbers row.element.toNat e' ↔ e' = e) ∧
          ¬ m.IsHidden e) := by
  have hpair : PackageBuilder.enterEach { model := m, options := o } units =
      ((PackageBuilder.enterEach { model := m, options := o } units).1, b) := Prod.ext rfl hcalls
  obtain ⟨taken, hrun, rfl, -⟩ := exists_fullRun_of_enterEach hpair
  refine ⟨fun r hr => hrun.not_isHidden_of_record hr, ?_, _,
    PackageBuilder.assemble_eq hrun.nodup_elementIds hrun.uses, ?_, ?_⟩
  · intro u hu relation hrelation
    obtain ⟨r, hr⟩ := hrun.exists_record hu hrelation
    exact ⟨r, hr, hrun.not_isHidden_of_record (List.mem_of_getElem? hr)⟩
  · intro n hn
    rw [hrun.shows.elementCount_eq] at hn
    obtain ⟨e, hnumber, he, hhidden⟩ := hrun.numbered_not_isHidden hn
    exact ⟨e, hnumber, hrun.shows.described n e he, hhidden⟩
  · intro u hu row hrow
    have hn := hrun.shows.lt_elementCount_iff.2 ⟨u, hu, row, hrow, rfl⟩
    rw [hrun.shows.elementCount_eq] at hn
    obtain ⟨e, hnumber, -, hhidden⟩ := hrun.numbered_not_isHidden hn
    exact ⟨e, hnumber, hhidden⟩

namespace Sample

/-- A class whose supertype is a function inside one of its own methods. -/
def localModel : Model := ⟨[
  { kind := .library, name := "", nameOffset := 0, sourceUri := some "a",
    definingUnit := some ⟨1⟩ },
  { kind := .compilationUnit, name := "", nameOffset := 0, sourceUri := some "a",
    enclosing := some ⟨0⟩ },
  { kind := .classType, name := "A", nameOffset := 6, enclosing := some ⟨1⟩,
    supertype := some ⟨4⟩ },
  { kind := .method, name := "m", nameOffset := 10, enclosing := some ⟨2⟩ },
  { kind := .function, name := "f", nameOffset := 16, enclosing := some ⟨3⟩ }]⟩

def localUnit : Node .compilationUnit :=
  Tree.addDeclaration (.emptyUnit ⟨1⟩)
    (.node _ (.here (.classDeclaration ⟨"class", 0⟩ (.declaredIdentifier ⟨⟨"A", 6⟩, some ⟨2⟩⟩))))

end Sample

/-- The unit offers the class and, by its supertype, the hidden function; only the class gets a
record. -/
theorem hidden_never_indexed_sample :
    Sample.localModel.IsHidden ⟨4⟩ ∧
      (Sample.localUnit.candidates Sample.localModel .withDefinitions).map (·.target) =
        [⟨2⟩, ⟨4⟩] ∧
      (PackageBuilder.enterEach { model := Sample.localModel, options := .withDefinitions }
        [Sample.localUnit]).2.tables.elements.elementIds = [⟨2⟩] ∧
      ∀ r ∈ (PackageBuilder.enterEach { model := Sample.localModel, options := .withDefinitions }
        [Sample.localUnit]).2.tables.elements.records, ¬ Sample.localModel.IsHidden r.element :=
  ⟨Model.isFiltered_iff.1 (by decide), by decide, by decide +kernel,
    (hidden_never_indexed Sample.localModel .withDefinitions [Sample.localUnit] _ rfl).1⟩

end UsageIndex
