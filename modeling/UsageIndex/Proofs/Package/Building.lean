import UsageIndex.Proofs.Element.Building
import UsageIndex.Proofs.Package.Entering
import UsageIndex.Proofs.Package.Logging
import UsageIndex.Proofs.Unit.Mentions

/-!
Indexes over models that are built up. In such a model every element has a home and no element is
linked to another but for what encloses it, so whatever units over it use can be recorded: no run
fails, and none drops a use.
-/

set_option autoImplicit false

namespace UsageIndex

section Dropping

variable {m : Model} {o : Options} {units : List (Node .compilationUnit)} {kind : RelationKind}
  {offset : UInt32} {fault : Fault}

theorem Attempt.answer_of_event_eq_dropped {a : Attempt}
    (h : a.event = .dropped kind offset fault) : a.answer = .error fault := by
  obtain ⟨c, fault' | handle⟩ := a
  · cases h
    rfl
  · cases h

theorem FullRun.exists_logs (h : FullRun m o units) :
    ∃ logs, List.Forall₂ (fun unit (l : UnitLog) => l.Accounts m o unit) units logs ∧
      (indexUnits m o units).2 = logs.flatMap UnitLog.events ++
        .indexedUnits units.length :: PackageBuilder.assemblyLog (indexUnits m o units).1 := by
  obtain ⟨logs, haccounts, hlog, -⟩ := PackageBuilder.logs_of_indexAll
    (b := { model := m, options := o }) rfl rfl .empty h.finished
  refine ⟨logs, haccounts, ?_⟩
  rw [indexUnits, h.finished]
  exact congrArg (· ++ _) hlog

theorem dropped_not_mem_assemblyLog (result : Except Fault PackageIndex) :
    .dropped kind offset fault ∉ PackageBuilder.assemblyLog result := by
  cases result with
  | error fault => exact List.not_mem_nil
  | ok p => simp [PackageBuilder.assemblyLog]

/-- What a run drops is a use that its units offer, of an element without a home. -/
theorem FullRun.lacksHome_of_dropped (h : FullRun m o units)
    (hdropped : .dropped kind offset fault ∈ (indexUnits m o units).2) :
    ∃ unit ∈ units, ∃ c ∈ unit.candidates m o, m.LacksHome c.target fault := by
  obtain ⟨logs, haccounts, hlog⟩ := h.exists_logs
  rw [hlog, List.mem_append, List.mem_cons] at hdropped
  obtain hunits | hcount | hassembly := hdropped
  · obtain ⟨l, hl, hevent⟩ := List.mem_flatMap.1 hunits
    obtain ⟨unit, hunit, haccount⟩ := forall₂_mem haccounts.flip hl
    rcases List.mem_append.1 hevent with hattempt | hclosing
    · obtain ⟨a, ha, hdropped⟩ := List.mem_map.1 hattempt
      have hanswer := Attempt.answer_of_event_eq_dropped hdropped
      have hoffered : a.candidate ∈ (unit.candidates m o).filter fun c => !m.isFiltered c.target :=
        haccount.candidates ▸ List.mem_map_of_mem ha
      exact ⟨unit, hunit, a.candidate, (List.mem_filter.1 hoffered).1,
        (haccount.faults a ha fault).1 hanswer⟩
    · cases List.mem_singleton.1 hclosing
  · cases hcount
  · exact absurd hassembly (dropped_not_mem_assemblyLog _)

end Dropping

namespace Model

/-- All elements that stand in the unit are in the model. -/
def Covers (m : Model) (unit : Node .compilationUnit) : Prop :=
  ∀ e ∈ unit.elements, ∃ element, m.get? e = some element

/-- The way out from the element passes nothing twice and ends in a library. -/
structure EndsIn (m : Model) (libraries : List ElementId) (e : ElementId) : Prop where
  no_circle : ∀ x, Relation.ReflTransGen m.Links e x → ¬ Relation.TransGen m.Links x x
  nodup : ((m.enclosingChain e).map Prod.fst).Nodup
  library : ∃ library ∈ libraries, ∃ element, (m.enclosingChain e).getLast? =
    some (library, element) ∧ element.kind = .library ∧ element.enclosing = none

/-- The units have an index that shows all uses they offer but for those that are never indexed,
and nothing is dropped on the way to it. -/
structure IndexesAll (m : Model) (o : Options) (units : List (Node .compilationUnit)) : Prop where
  index : ∃ p, (indexUnits m o units).1 = .ok p ∧ p.Shows m o units
  uses : ∀ unit ∈ units, unit.recordedUses m o =
    (unit.candidates m o).filter fun c => !m.isFiltered c.target
  log : ∀ kind offset fault, .dropped kind offset fault ∉ (indexUnits m o units).2

namespace Linked

variable {m : Model} {libraries units : List ElementId} {e : ElementId} {element : Element}

theorem endsIn (h : m.Linked libraries units) (he : m.get? e = some element) :
    m.EndsIn libraries e := by
  obtain ⟨k, library, libraryElement, hk, hmem, hkind, hnone⟩ := h.exists_library he
  refine ⟨fun x _ => h.no_circle x, ?_,
    ⟨library, hmem, libraryElement, getLast?_enclosingChain hk hnone, hkind, hnone⟩⟩
  exact nodup_ids_iff.2 (nodup_enclosingChain_of_noCircle fun x _ => h.no_circle x)

theorem not_isLinked (h : m.Linked libraries units) (e : ElementId) : ¬ m.IsLinked e := by
  rintro ⟨element, helement, hlink⟩
  have hplain := h.plain element helement
  simp [hplain.supertype, hplain.field, hplain.library] at hlink

theorem not_redirects (h : m.Linked libraries units) (e r : ElementId) : ¬ m.Redirects e r := by
  rintro ⟨element, he, -, -, hr⟩
  have hplain := h.plain element (List.mem_of_getElem? he)
  rw [hplain.redirectedConstructor] at hr
  cases hr

theorem homeUris_of_candidates (h : m.Linked libraries units) {o : Options}
    {unit : Node .compilationUnit} (hunit : m.Covers unit) {c : Candidate}
    (hc : c ∈ unit.candidates m o) : ∃ pair, m.homeUris c.target = .ok pair := by
  rcases Tree.source_of_candidates hc with hmem | hlinked | ⟨e, -, hredirects⟩
  · obtain ⟨element, he⟩ := hunit _ hmem
    exact h.exists_homeUris he
  · exact absurd hlinked (h.not_isLinked _)
  · exact absurd hredirects (h.not_redirects _ _)

theorem recordedUses_eq (h : m.Linked libraries units) (o : Options)
    {unit : Node .compilationUnit} (hunit : m.Covers unit) :
    unit.recordedUses m o = (unit.candidates m o).filter fun c => !m.isFiltered c.target := by
  refine List.filter_congr ?_
  intro c hc
  obtain ⟨pair, hpair⟩ := h.homeUris_of_candidates hunit hc
  rw [isIndexed, hpair]
  exact Bool.and_true _

theorem indexesAll (h : m.Linked libraries units) (o : Options)
    {trees : List (Node .compilationUnit)} (hroots : ∀ tree ∈ trees, tree.unitElement ∈ units)
    (hcovers : ∀ tree ∈ trees, m.Covers tree) : m.IndexesAll o trees := by
  have hrun : FullRun m o trees :=
    .of_isRoot fun tree htree => isRoot_iff.2 (h.exists_unitUris (hroots tree htree))
  refine ⟨⟨_, hrun.indexUnits_eq, hrun.shows⟩, fun tree htree => h.recordedUses_eq o
    (hcovers tree htree), ?_⟩
  intro kind offset fault hdropped
  obtain ⟨tree, htree, c, hc, hlacks⟩ := hrun.lacksHome_of_dropped hdropped
  obtain ⟨pair, hpair⟩ := h.homeUris_of_candidates (hcovers tree htree) hc
  rw [homeUris_eq_error_iff.2 hlacks] at hpair
  cases hpair

end Linked

/-- In a model that is built up, with no more elements than there are numbers, each way out ends in
a library, each element can be interned at any time, and all that units over the model use is
indexed. -/
theorem Built.indexes_all {m : Model} {libraries units : List ElementId}
    (h : m.Built libraries units) (hm : m.size ≤ UInt32.size) :
    (∀ e element, m.get? e = some element → m.EndsIn libraries e) ∧
    (∀ e element, m.get? e = some element → ∀ t : Tables, t.AfterCalls m →
      ∃ handle, ((Tables.enter m e).runOn t).1 = .ok handle) ∧
    ∀ (o : Options) (trees : List (Node .compilationUnit)),
      (∀ tree ∈ trees, tree.unitElement ∈ units) → (∀ tree ∈ trees, m.Covers tree) →
      m.IndexesAll o trees := by
  have hlinked := h.linked hm
  refine ⟨fun e element he => hlinked.endsIn he, ?_,
    fun o trees hroots hcovers => hlinked.indexesAll o hroots hcovers⟩
  intro e element he t ht
  obtain ⟨pair, hpair⟩ := hlinked.exists_homeUris he
  obtain ⟨handle, t', hrun, -⟩ := ht.traced.runOn_enter_ok hpair
  exact ⟨handle, by rw [hrun]⟩

end Model

namespace Sample

/-- A library with a part. One class stands right in the library, another in the part. -/
def builtModel : Model :=
  let (ids, m) := Model.empty.addLibrary "a"
  let (part, m) := m.addPart ids.1 "p"
  let (_, m) := m.addChild ids.1 .classType "A" 6
  (m.addChild part .classType "B" 6).2

def builtUnit : Node .compilationUnit :=
  unit ⟨2⟩ ⟨⟨"B", 6⟩, some ⟨4⟩⟩ ⟨⟨"A", 16⟩, some ⟨3⟩⟩ ⟨⟨"A", 18⟩, some ⟨3⟩⟩

theorem built_builtModel : builtModel.Built [⟨0⟩] [⟨1⟩, ⟨2⟩] :=
  have hlibrary := Model.Built.empty.library "a"
  have hpart := hlibrary.part List.mem_cons_self "p"
  have hinLibrary := hpart.child ⟨_, rfl⟩ (by decide) (by decide) "A" 6
  hinLibrary.child ⟨_, rfl⟩ (by decide) (by decide) "B" 6

theorem covers_builtUnit : builtModel.Covers builtUnit := by
  have hknown : ∀ e ∈ builtUnit.elements, (builtModel.get? e).isSome = true := by decide
  exact fun e he => Option.isSome_iff_exists.1 (hknown e he)

end Sample

/-- The class in the library has its home in the defining unit; the part uses it twice. -/
theorem Model.Built.indexes_all_sample :
    Sample.builtModel.Built [⟨0⟩] [⟨1⟩, ⟨2⟩] ∧ Sample.builtModel.size ≤ UInt32.size ∧
      Sample.builtModel.EndsIn [⟨0⟩] ⟨4⟩ ∧
      (∃ handle, ((Tables.enter Sample.builtModel ⟨3⟩).runOn
        ((Tables.enter Sample.builtModel ⟨4⟩).runOn {}).2).1 = .ok handle) ∧
      Sample.builtModel.IndexesAll {} [Sample.builtUnit] ∧
      Sample.builtUnit.recordedUses Sample.builtModel {} =
        [⟨⟨3⟩, .isExtendedBy, ⟨16, 1⟩⟩, ⟨⟨3⟩, .isReferencedBy, ⟨18, 1⟩⟩] := by
  have hsize : Sample.builtModel.size ≤ UInt32.size := by decide
  obtain ⟨hends, hentered, hindexed⟩ := indexes_all Sample.built_builtModel hsize
  refine ⟨Sample.built_builtModel, hsize, hends ⟨4⟩ _ rfl,
    hentered ⟨3⟩ _ rfl _ (.element .none ⟨4⟩), hindexed {} [Sample.builtUnit] ?_ ?_, ?_⟩
  · intro tree htree
    obtain rfl := List.mem_singleton.1 htree
    decide
  · intro tree htree
    obtain rfl := List.mem_singleton.1 htree
    exact Sample.covers_builtUnit
  · decide +kernel

end UsageIndex
