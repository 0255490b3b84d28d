import UsageIndex.Proofs.Package.Roots

/-!
The log of a run. Each use that comes up for recording is either recorded or dropped, and leaves
one line that says which; a unit's lines end with the number of its relations, and the log of a
run that gets through ends with the sizes of the index. Uses that are never indexed and units that
are turned away leave no line.
-/

set_option autoImplicit false

namespace UsageIndex

/-- A use that comes up for recording, with what interning its element gave. -/
structure Attempt where
  candidate : Candidate
  answer : Except Fault Handle

namespace Attempt

def relation? (a : Attempt) : Option Relation :=
  match a.answer with
  | .ok handle => some ⟨handle, a.candidate.kind, a.candidate.location⟩
  | .error _ => none

def event (a : Attempt) : LogEvent :=
  match a.answer with
  | .ok _ => .recorded a.candidate.kind a.candidate.target a.candidate.location
  | .error fault => .dropped a.candidate.kind a.candidate.location.offset fault

/-- The line of an attempt. Only a fault that says more than that an element is not linked or not
known is a warning. -/
def line (a : Attempt) : String :=
  match a.answer with
  | .ok _ =>
    "TRACE " ++ a.candidate.kind.name ++ " elem_" ++ toString a.candidate.target.index.toNat
      ++ " at " ++ toString a.candidate.location.offset.toNat
      ++ "+" ++ toString a.candidate.location.length.toNat
  | .error fault =>
    (if fault.isRecoverable then "DEBUG" else "WARN") ++ " dropping " ++ a.candidate.kind.name
      ++ " relation at " ++ toString a.candidate.location.offset.toNat ++ ": " ++ fault.message

theorem line_event (a : Attempt) : a.event.line = a.line := by
  have hdropping : " dropping " = " " ++ "dropping " := by simp only [String.reduceAppend]
  have htrace : "TRACE " = "TRACE" ++ " " := by simp only [String.reduceAppend]
  have hlabel : " elem_" = " " ++ "elem_" := by simp only [String.reduceAppend]
  obtain ⟨c, fault | handle⟩ := a
  · unfold event line LogEvent.line LogEvent.level LogEvent.message
    cases hrecoverable : fault.isRecoverable <;>
      simp only [hrecoverable, hdropping, String.append_assoc] <;> rfl
  · unfold event line LogEvent.line LogEvent.level LogEvent.message LogLevel.name ElementId.label
    simp only [htrace, hlabel, String.append_assoc]

theorem isSome_relation? (a : Attempt) : a.relation?.isSome = a.answer.isOk := by
  obtain ⟨c, fault | handle⟩ := a <;> rfl

end Attempt

namespace Recording

/-- The second recording comes from the first by these attempts. Each is made with the tables that
the attempts before it have left. -/
inductive Tries (m : Model) : Recording → List Attempt → Recording → Prop where
  | done (r : Recording) : Tries m r [] r
  | next {r r' : Recording} {c : Candidate} {rest : List Attempt}
      (h : m.isFiltered c.target = false) (hrest : Tries m (r.add m c).2 rest r') :
      Tries m r (⟨c, ((Tables.enter m c.target).runOn r.tables).1⟩ :: rest) r'

variable {m : Model} {r r' : Recording} {attempts : List Attempt}

theorem tries_addAll (m : Model) (r : Recording) (cs : List Candidate) :
    ∃ attempts, r.Tries m attempts (r.addAll m cs) ∧
      attempts.map (·.candidate) = cs.filter fun c => !m.isFiltered c.target := by
  induction cs generalizing r with
  | nil => exact ⟨[], .done r, rfl⟩
  | cons c cs ih =>
    cases hf : m.isFiltered c.target with
    | true =>
      obtain ⟨attempts, htries, hcandidates⟩ := ih r
      refine ⟨attempts, ?_, by simpa [hf] using hcandidates⟩
      simpa [addAll, hf] using htries
    | false =>
      obtain ⟨attempts, htries, hcandidates⟩ := ih (r.add m c).2
      refine ⟨_ :: attempts, .next hf ?_, by simpa [hf] using hcandidates⟩
      simpa [addAll, hf] using htries

theorem add_attempt (m : Model) (r : Recording) (c : Candidate) :
    (r.add m c).2.log =
        r.log ++ [(⟨c, ((Tables.enter m c.target).runOn r.tables).1⟩ : Attempt).event] ∧
      (r.add m c).2.unit.relations = r.unit.relations ++
        (⟨c, ((Tables.enter m c.target).runOn r.tables).1⟩ : Attempt).relation?.toList := by
  unfold add
  split
  · rename_i handle tables h
    simp [h, Attempt.event, Attempt.relation?]
  · rename_i fault tables h
    simp [h, Attempt.event, Attempt.relation?]

theorem Tries.log (h : r.Tries m attempts r') : r'.log = r.log ++ attempts.map Attempt.event := by
  induction h with
  | done r => simp
  | next _ _ ih =>
    rw [ih, (add_attempt _ _ _).1, List.append_assoc, List.map_cons, List.singleton_append]

theorem Tries.relations (h : r.Tries m attempts r') :
    r'.unit.relations = r.unit.relations ++ attempts.filterMap Attempt.relation? := by
  induction h with
  | done r => simp
  | next _ _ ih =>
    rw [ih, (add_attempt _ _ _).2, List.append_assoc, List.filterMap_cons]
    split <;> simp [*]

/-- Whether an attempt fails, and for which fault, is settled by the model. -/
theorem Tries.answer_eq_error_iff (h : r.Tries m attempts r') (ht : r.tables.Traced m)
    {a : Attempt} (ha : a ∈ attempts) {fault : Fault} :
    a.answer = .error fault ↔ m.LacksHome a.candidate.target fault := by
  induction h with
  | done r => cases ha
  | @next r r' c rest hf _ ih =>
    rcases List.mem_cons.1 ha with rfl | hrest
    · rw [← Model.homeUris_eq_error_iff]
      cases hhome : m.homeUris c.target with
      | error other => simp [ht.runOn_enter_error hhome]
      | ok pair =>
        obtain ⟨handle, t', hrun, -⟩ := ht.runOn_enter_ok hhome
        simp [hrun]
    · have hstep := gains_step ht c
      rw [hf] at hstep
      exact ih hstep.traced hrest

end Recording

structure UnitLog where
  attempts : List Attempt
  uri : String
  /-- What is kept for the unit until the index is assembled. -/
  recorder : UnitRecorder

namespace UnitLog

def events (l : UnitLog) : List LogEvent :=
  l.attempts.map Attempt.event ++ [.indexedUnit l.uri l.recorder.relations.length]

def lines (l : UnitLog) : List String :=
  l.attempts.map Attempt.line ++
    ["DEBUG indexed " ++ l.uri ++ " (" ++ toString l.recorder.relations.length ++ " relations)"]

theorem line_indexedUnit (uri : String) (count : Nat) :
    (LogEvent.indexedUnit uri count).line =
      "DEBUG indexed " ++ uri ++ " (" ++ toString count ++ " relations)" := by
  have hindexed : "DEBUG indexed " = "DEBUG" ++ " " ++ "indexed " := by
    simp only [String.reduceAppend]
  unfold LogEvent.line LogEvent.level LogEvent.message LogLevel.name
  simp only [hindexed, String.append_assoc]

theorem lines_eq (l : UnitLog) : l.events.map LogEvent.line = l.lines := by
  have hattempts :
      (l.attempts.map Attempt.event).map LogEvent.line = l.attempts.map Attempt.line := by
    rw [List.map_map]
    exact List.map_congr_left fun a _ => a.line_event
  rw [events, lines, List.map_append, hattempts, List.map_singleton, line_indexedUnit]

/-- The log accounts for the unit: its attempts are those of a walk over the unit, one for each use
that the unit offers and that may be indexed, in order; what succeeded was recorded and nothing
else; and what failed did so for a fault in the model. -/
structure Accounts (m : Model) (o : Options) (unit : Node .compilationUnit) (l : UnitLog) :
    Prop where
  walked : ∃ start : Recording, start.tables.Reached m ∧ start.unit.relations = [] ∧
    start.Tries m l.attempts (start.contribute m o unit) ∧
    (start.contribute m o unit).unit = l.recorder
  candidates : l.attempts.map (·.candidate) =
    (unit.candidates m o).filter fun c => !m.isFiltered c.target
  relations : l.recorder.relations = l.attempts.filterMap Attempt.relation?
  recorded : l.recorder.relations.length = l.attempts.countP (·.answer.isOk)
  faults : ∀ a ∈ l.attempts, ∀ fault,
    a.answer = .error fault ↔ m.LacksHome a.candidate.target fault
  uri : m.sourceUri unit.unitElement = .ok l.uri

end UnitLog

namespace PackageBuilder

variable {m : Model} {o : Options} {b b' : PackageBuilder}

theorem logs_of_indexUnit (hm : b.model = m) (ho : b.options = o) (h : b.tables.Reached m)
    {unit : Node .compilationUnit} (hstep : b.indexUnit unit = .ok b') :
    ∃ l : UnitLog, l.Accounts m o unit ∧ b'.log = b.log ++ l.events ∧
      b'.units = b.units ++ [l.recorder] := by
  subst hm ho
  cases hpair : b.model.unitUris unit.unitElement with
  | error fault => cases (indexUnit_error rfl hpair).symm.trans hstep
  | ok pair =>
    obtain ⟨key, uris, hkey, ht, rfl⟩ := indexUnit_eq_addUnit rfl h.traced hstep
    obtain ⟨key', uris', hkey', -, -, hstands⟩ := h.traced.uris.enterUnit hpair
    cases hkey.symm.trans hkey'
    let start : Recording := { tables := { b.tables with uris }, unit := { key }, log := b.log }
    have hreached : start.tables.Reached b.model := .unit h (InPlace.outcome_eq_ok_iff.2 hkey)
    have hgrown := (Recording.gains_contribute (r := start) ht b.options unit).grown
    have huri := UriTable.get?_mono hgrown.uris (UriTable.pair?_eq_some_iff.1 hstands).2
    obtain ⟨attempts, htries, hcandidates⟩ :=
      Recording.tries_addAll b.model start (unit.candidates b.model b.options)
    rw [← Recording.contribute_eq] at htries
    have hrelations : (start.contribute b.model b.options unit).unit.relations =
        attempts.filterMap Attempt.relation? := htries.relations
    refine ⟨⟨attempts, pair.2, (start.contribute b.model b.options unit).unit⟩,
      ⟨⟨start, hreached, rfl, htries, rfl⟩, hcandidates, hrelations, ?_, ?_, ?_⟩, ?_, rfl⟩
    · simp only [hrelations, List.length_filterMap_eq_countP, Attempt.isSome_relation?]
    · exact fun a ha fault => htries.answer_eq_error_iff ht ha
    · exact (unitUris_eq_ok hpair).1
    · change (start.contribute b.model b.options unit).log ++ [.indexedUnit
        (((start.contribute b.model b.options unit).tables.uris.get? key.unit).getD
          "<unknown>") _] = _
      rw [huri, Option.getD_some, htries.log, List.append_assoc]
      rfl

theorem logs_of_indexAll (hm : b.model = m) (ho : b.options = o) (h : b.tables.Reached m)
    {units : List (Node .compilationUnit)} (hrun : b.indexAll units = (b', none)) :
    ∃ logs, List.Forall₂ (fun unit (l : UnitLog) => l.Accounts m o unit) units logs ∧
      b'.log = b.log ++ logs.flatMap UnitLog.events ∧
      b'.units = b.units ++ logs.map UnitLog.recorder := by
  induction units generalizing b with
  | nil =>
    cases hrun
    exact ⟨[], .nil, by simp, by simp⟩
  | cons unit units ih =>
    obtain ⟨b₁, hstep, hran, hrest⟩ := exists_step_of_indexAll hm ho h.traced hrun
    obtain ⟨l, hl, hlog, hunits⟩ := logs_of_indexUnit hm ho h hstep
    obtain ⟨logs, hlogs, hlog', hunits'⟩ :=
      ih hran.model hran.options (reached_indexUnit hm h hstep) hrest
    refine ⟨l :: logs, .cons hl hlogs, ?_, ?_⟩
    · rw [hlog', hlog, List.append_assoc, List.flatMap_cons]
    · rw [hunits', hunits, List.append_assoc, List.map_cons, List.singleton_append]

theorem map_size_index {uss : List (List Candidate)}
    (h : List.Forall₂ (fun u us => u.uses? b.tables.elements = some us) b.units uss) :
    (b.index uss).units.map UnitIndex.size = b.units.map (·.relations.length) := by
  unfold index
  generalize b.units = recorders at h
  induction h with
  | nil => rfl
  | @cons u us _ _ hus _ ih =>
    have hlength : us.length = u.relations.length := by
      rw [UnitRecorder.uses?, mapM_eq_some_iff] at hus
      exact hus.length_eq.symm
    have hsize : (unitIndex b.tables.elements.numbering u us).size = u.relations.length := by
      rw [unitIndex, UnitIndex.size_ofUsages, UnitRecorder.rows, (sortByKey_perm _ _).length_eq,
        List.length_map, hlength]
    rw [List.zipWith_cons_cons, List.map_cons, List.map_cons, hsize, ih]

end PackageBuilder

/-- How the log of a run over so many units ends. A run that fails just stops. -/
def closingLines (count : Nat) : Except Fault PackageIndex → List String
  | .ok p =>
    ["DEBUG indexed " ++ toString count ++ " units",
      "DEBUG assembled package index: " ++ toString p.units.length ++ " units, "
        ++ toString p.elementCount ++ " elements, " ++ toString p.uris.length ++ " uris"]
  | .error _ => []

theorem closingLines_eq (count : Nat) (p : PackageIndex) :
    (LogEvent.indexedUnits count :: PackageBuilder.assemblyLog (.ok p)).map LogEvent.line =
      closingLines count (.ok p) := by
  have hindexed : "DEBUG indexed " = "DEBUG" ++ " " ++ "indexed " := by
    simp only [String.reduceAppend]
  have hassembled : "DEBUG assembled package index: " =
      "DEBUG" ++ " " ++ "assembled package index: " := by
    simp only [String.reduceAppend]
  unfold PackageBuilder.assemblyLog closingLines
  rw [List.map_cons, List.map_singleton]
  unfold LogEvent.line LogEvent.level LogEvent.message LogLevel.name
  simp only [hindexed, hassembled, String.append_assoc]

/-- The lines of a run are those of the units up to the first that is turned away, and those that
close it. -/
structure AccountsForRun (m : Model) (o : Options) (units taken rest : List (Node .compilationUnit))
    (logs : List UnitLog) : Prop where
  split : units = taken ++ rest
  roots : ∀ unit ∈ taken, m.IsRoot unit.unitElement
  refused : ∀ unit ∈ rest.head?, ¬ m.IsRoot unit.unitElement
  accounts : List.Forall₂ (fun unit (l : UnitLog) => l.Accounts m o unit) taken logs
  recorders : logs.map UnitLog.recorder = (builderOf m o units).units
  lines : (indexUnits m o units).2.map LogEvent.line =
    logs.flatMap UnitLog.lines ++ closingLines units.length (indexUnits m o units).1
  finished : (∃ p, (indexUnits m o units).1 = .ok p) ↔ rest = []
  sizes : ∀ p, (indexUnits m o units).1 = .ok p →
    p.units.map UnitIndex.size = logs.map fun l => l.recorder.relations.length

variable {m : Model} {o : Options} {units : List (Node .compilationUnit)}

theorem map_line_flatMap_events (logs : List UnitLog) :
    (logs.flatMap UnitLog.events).map LogEvent.line = logs.flatMap UnitLog.lines := by
  rw [List.map_flatMap]
  exact List.flatMap_congr fun l _ => l.lines_eq

theorem FullRun.accountsForRun (h : FullRun m o units) :
    ∃ logs, AccountsForRun m o units units [] logs := by
  obtain ⟨logs, haccounts, hlog, hunits⟩ := PackageBuilder.logs_of_indexAll
    (b := { model := m, options := o }) rfl rfl .empty h.finished
  have hresult := h.indexUnits_eq
  have hassemble := PackageBuilder.assemble_eq h.nodup_elementIds h.uses
  refine ⟨logs, by simp, ?_, by simp, haccounts, hunits.symm, ?_, by simp [hresult], ?_⟩
  · exact fun unit hunit => Model.isRoot_iff.2 (roots_of_indexUnits hresult unit hunit)
  · rw [hresult, indexUnits, h.finished]
    change ((builderOf m o units).log ++ _).map _ = _
    rw [hassemble, hlog, List.map_append, closingLines_eq]
    exact congrArg (· ++ _) (map_line_flatMap_events logs)
  · intro p hp
    obtain rfl := Except.ok.inj (hresult.symm.trans hp)
    rw [PackageBuilder.map_size_index h.uses]
    have hunits' : (builderOf m o units).units = logs.map UnitLog.recorder := hunits
    rw [hunits', List.map_map]
    rfl

theorem FirstLacksRoot.accountsForRun {fault : Fault} (h : FirstLacksRoot m units fault)
    (o : Options) : ∃ taken rest logs, AccountsForRun m o units taken rest logs := by
  have hresult := h.indexUnits_eq o
  obtain ⟨before, unit, after, rfl, hbefore, hpair, hlacks⟩ := h
  have hrun := indexAll_of_firstLacksRoot o hbefore hpair after
  have hbuilder : builderOf m o (before ++ unit :: after) = builderOf m o before := by
    rw [builderOf, hrun]
  obtain ⟨logs, haccounts, hlog, hunits⟩ := PackageBuilder.logs_of_indexAll
    (b := { model := m, options := o }) rfl rfl .empty (FullRun.of_isRoot (o := o) hbefore).finished
  refine ⟨before, unit :: after, logs, rfl, hbefore, ?_, haccounts, ?_, ?_, by simp [hresult],
    by simp [hresult]⟩
  · intro other hother
    obtain rfl := Option.some.inj hother
    exact hlacks.not_isRoot
  · rw [hbuilder]
    exact hunits.symm
  · rw [hresult, indexUnits, hrun]
    change (builderOf m o before).log.map _ = _
    rw [hlog, closingLines, List.append_nil]
    exact map_line_flatMap_events logs

/-- The log accounts for each run. -/
theorem log_of_indexUnits (m : Model) (o : Options) (units : List (Node .compilationUnit)) :
    ∃ taken rest logs, AccountsForRun m o units taken rest logs := by
  rcases isRoot_or_firstLacksRoot m units with hall | ⟨fault, hfirst⟩
  · exact ⟨units, [], (FullRun.of_isRoot hall).accountsForRun⟩
  · exact hfirst.accountsForRun o

end UsageIndex
