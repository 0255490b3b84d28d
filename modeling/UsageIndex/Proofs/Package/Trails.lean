import UsageIndex.Proofs.Package.Units

/-!
What an index shows, node by node. A unit is walked once, and each node that is visited adds its
uses behind those of the nodes before; the rows of the unit's entry are these uses, sorted.
-/

set_option autoImplicit false

namespace UsageIndex

/-- The nodes of a walk in the order of visiting, each with the uses that it produced. -/
abbrev Trail := List (SomeNode × List Candidate)

namespace Contributor

/-- Visiting the node records these uses, behind those that were recorded before. -/
def Produces (m : Model) (o : Options) (c : Contributor) (n : SomeNode) (us : List Candidate) :
    Prop :=
  ∃ before, c.recording.uses? = some before ∧
    (c.visit m o n.node).recording.uses? = some (before ++ us)

inductive Walks (m : Model) (o : Options) : Contributor → Trail → Contributor → Prop where
  | done (c : Contributor) : Walks m o c [] c
  | visit {c c' : Contributor} {n : SomeNode} {us : List Candidate} {trail : Trail}
      (h : c.Produces m o n us) (rest : Walks m o (c.visit m o n.node) trail c') :
      Walks m o c ((n, us) :: trail) c'

end Contributor

/-- What nodes produce one after the other, where `claimed` identifiers are spoken for. -/
def trailOf (m : Model) (o : Options) : List SomeNode → (claimed : List UInt32) → Trail
  | [], _ => []
  | n :: ns, claimed =>
    (n, m.indexedUses (n.shown m o claimed)) :: trailOf m o ns (n.claimedBehind claimed)

variable {m : Model} {o : Options}

theorem map_fst_trailOf (ns : List SomeNode) (claimed : List UInt32) :
    (trailOf m o ns claimed).map Prod.fst = ns := by
  induction ns generalizing claimed with
  | nil => rfl
  | cons n ns ih => rw [trailOf, List.map_cons, ih]

theorem flatMap_snd_trailOf (ns : List SomeNode) (claimed : List UInt32) :
    (trailOf m o ns claimed).flatMap Prod.snd = m.indexedUses (offers m o ns claimed) := by
  induction ns generalizing claimed with
  | nil => rfl
  | cons n ns ih =>
    rw [trailOf, List.flatMap_cons, ih, offers, Model.indexedUses, Model.indexedUses,
      Model.indexedUses, List.filter_append]

theorem mem_trailOf {ns : List SomeNode} {claimed : List UInt32} {n : SomeNode}
    {us : List Candidate} (h : (n, us) ∈ trailOf m o ns claimed) :
    ∃ claimed', us = m.indexedUses (n.shown m o claimed') := by
  induction ns generalizing claimed with
  | nil => cases h
  | cons n' ns ih =>
    rcases List.mem_cons.1 h with heq | hrest
    · cases heq
      exact ⟨claimed, rfl⟩
    · exact ih hrest

theorem Contributor.walks_trailOf {c : Contributor} (h : c.recording.tables.Traced m)
    {before : List Candidate} (hbefore : c.recording.uses? = some before) (ns : List SomeNode) :
    c.Walks m o (trailOf m o ns c.claimed) (ns.foldl (fun c n => c.visit m o n.node) c) := by
  induction ns generalizing c before with
  | nil => exact .done c
  | cons n ns ih =>
    have hvisit := c.visit_eq m o n
    have hgains := Recording.gains_addAll h (n.shown m o c.claimed)
    have hafter := hgains.uses before hbefore
    refine .visit ⟨before, hbefore, by rw [hvisit]; exact hafter⟩ ?_
    rw [List.foldl_cons, hvisit]
    exact ih hgains.traced hafter

def Tree.trail (m : Model) (o : Options) (unit : Node .compilationUnit) : Trail :=
  trailOf m o unit.nodes []

/-- The recorder was filled by a walk over the unit, from no relations on. -/
def UnitRecorder.WalkedAs (m : Model) (o : Options) (unit : Node .compilationUnit)
    (trail : Trail) (u : UnitRecorder) : Prop :=
  ∃ (start : Recording) (c : Contributor), start.unit.relations = [] ∧
    unit.walk (Contributor.visitor m o) ⟨start, []⟩ = (.finished, c) ∧ c.recording.unit = u ∧
    Contributor.Walks m o ⟨start, []⟩ trail c

theorem Recording.walkedAs_contribute {start : Recording} (h : start.tables.Traced m)
    (hstart : start.unit.relations = []) (unit : Node .compilationUnit) :
    (start.contribute m o unit).unit.WalkedAs m o unit (unit.trail m o) := by
  have hwalk := Tree.walk_eq_foldl (Contributor.visitor m o)
    (fun c n => c.visit m o n.node) (fun _ _ => rfl) (fun _ _ => rfl) unit ⟨start, []⟩
  have hempty : start.uses? = some [] := by
    rw [uses?, UnitRecorder.uses?, hstart]
    rfl
  exact ⟨start, _, hstart, hwalk, by rw [contribute, hwalk],
    Contributor.walks_trailOf (c := ⟨start, []⟩) h hempty unit.nodes⟩

namespace PackageBuilder

variable {b b' : PackageBuilder}

theorem walkedAs_of_indexUnit (hm : b.model = m) (ho : b.options = o) (h : b.tables.Traced m)
    {unit : Node .compilationUnit} (hstep : b.indexUnit unit = .ok b') :
    ∃ u, b'.units = b.units ++ [u] ∧ u.WalkedAs m o unit (unit.trail m o) := by
  subst hm ho
  obtain ⟨key, uris, -, ht, rfl⟩ := indexUnit_eq_addUnit rfl h hstep
  exact ⟨_, rfl, Recording.walkedAs_contribute ht rfl unit⟩

theorem walkedAs_of_indexAll (hm : b.model = m) (ho : b.options = o) (h : b.tables.Traced m)
    {units : List (Node .compilationUnit)} (hrun : b.indexAll units = (b', none)) :
    ∃ new, b'.units = b.units ++ new ∧
      List.Forall₂ (fun unit u => u.WalkedAs m o unit (unit.trail m o)) units new := by
  induction units generalizing b with
  | nil =>
    cases hrun
    exact ⟨[], by simp, .nil⟩
  | cons unit units ih =>
    obtain ⟨b₁, hstep, hran, hrest⟩ := exists_step_of_indexAll hm ho h hrun
    obtain ⟨u, hu, hwalked⟩ := walkedAs_of_indexUnit hm ho h hstep
    obtain ⟨new, hnew, hall⟩ := ih hran.model hran.options hran.traced hrest
    exact ⟨u :: new, by rw [hnew, hu, List.append_assoc, List.singleton_append],
      .cons hwalked hall⟩

end PackageBuilder

theorem FullRun.walkedAs {units : List (Node .compilationUnit)} (h : FullRun m o units) :
    List.Forall₂ (fun unit u => u.WalkedAs m o unit (unit.trail m o)) units
      (builderOf m o units).units := by
  obtain ⟨new, hnew, hall⟩ := PackageBuilder.walkedAs_of_indexAll
    (b := { model := m, options := o }) rfl rfl (Tables.traced_empty m) h.finished
  rw [List.nil_append] at hnew
  rwa [hnew]

/-- The entry shows what a walk over the unit recorded: the rows are the uses that the nodes on the
trail produced, sorted by their elements. -/
structure PackageBuilder.ShowsTrail (m : Model) (o : Options) (b : PackageBuilder)
    (unit : Node .compilationUnit) (recorder : UnitRecorder) (trail : Trail) (u : UnitIndex) :
    Prop where
  nodes : trail.map Prod.fst = unit.nodes
  walked : recorder.WalkedAs m o unit trail
  recorded : recorder.uses? b.tables.elements = some (trail.flatMap Prod.snd)
  rows : ∃ shown, u.uses? b.tables.elements.assignIds = some shown ∧
    KeepsUses (trail.flatMap Prod.snd) shown

theorem FullRun.showsTrail {units : List (Node .compilationUnit)} (h : FullRun m o units)
    {p : PackageIndex} (hp : p.Shows m o units) {k : Nat} {unit : Node .compilationUnit}
    (hk : units[k]? = some unit) :
    ∃ recorder u, (builderOf m o units).units[k]? = some recorder ∧ p.units[k]? = some u ∧
      (builderOf m o units).ShowsTrail m o unit recorder (unit.trail m o) u := by
  obtain ⟨u, hu, hentry⟩ := forall₂_getElem? hp.entries hk
  obtain ⟨recorder, hrecorder, hholds⟩ := forall₂_getElem? h.recorders hk
  obtain ⟨recorder', hrecorder', hwalked⟩ := forall₂_getElem? h.walkedAs hk
  obtain rfl := Option.some.inj (hrecorder'.symm.trans hrecorder)
  have huses : (unit.trail m o).flatMap Prod.snd = unit.recordedUses m o :=
    flatMap_snd_trailOf unit.nodes []
  refine ⟨_, u, hrecorder, hu, map_fst_trailOf unit.nodes [], hwalked, ?_, _,
    h.uses?_of_showsUnit (List.mem_of_getElem? hk) hentry, ?_⟩
  · rw [huses]
    exact hholds.uses
  · rw [huses]
    exact UnitRecorder.keepsUses_sortedUses _ _

end UsageIndex
