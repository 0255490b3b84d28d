import UsageIndex.Package.Builder
import UsageIndex.Proofs.Unit.Recording

/-!
What a run over a list of units leaves behind. Whether the run gets through is settled by the
roots of the units; then each unit has a recorder of its own that holds the unit's URIs and
uses, and the table of elements lists what was used, in the order of first mention.
-/

set_option autoImplicit false

namespace UsageIndex

def Tree.recordedUses (m : Model) (o : Options) (unit : Node .compilationUnit) :
    List Candidate :=
  m.indexedUses (unit.candidates m o)

/-- In these tables the recorder stands for the unit: its key for the unit's URIs, and its
relations for the unit's uses. -/
structure UnitRecorder.Holds (m : Model) (o : Options) (t : Tables)
    (unit : Node .compilationUnit) (u : UnitRecorder) : Prop where
  uris : ∃ pair, m.unitUris unit.unitElement = .ok pair ∧ t.uris.pair? u.key = some pair
  uses : u.uses? t.elements = some (unit.recordedUses m o)

theorem UnitRecorder.Holds.mono {m : Model} {o : Options} {t t' : Tables} (h : t.Extends t')
    {unit : Node .compilationUnit} {u : UnitRecorder} (hu : u.Holds m o t unit) :
    u.Holds m o t' unit where
  uris := by
    obtain ⟨pair, hpair, hkey⟩ := hu.uris
    exact ⟨pair, hpair, UriTable.pair?_mono h.uris hkey⟩
  uses := h.uses? hu.uses

namespace PackageBuilder

structure Ran (m : Model) (o : Options) (b : PackageBuilder)
    (units : List (Node .compilationUnit)) (b' : PackageBuilder) : Prop where
  model : b'.model = m
  options : b'.options = o
  traced : b'.tables.Traced m
  grown : b.tables.Extends b'.tables
  recorders : ∃ new, b'.units = b.units ++ new ∧
    List.Forall₂ (UnitRecorder.Holds m o b'.tables) units new
  elements : b'.tables.elements.elementIds = (b.tables.elements.elementIds ++
    (units.flatMap (Tree.recordedUses m o)).map (·.target)).eraseDups

variable {m : Model} {o : Options} {b b' b'' : PackageBuilder}

theorem Ran.refl (hm : b.model = m) (ho : b.options = o) (h : b.tables.Traced m) :
    b.Ran m o [] b where
  model := hm
  options := ho
  traced := h
  grown := Tables.Extends.refl _
  recorders := ⟨[], by simp, .nil⟩
  elements := by simp [eraseDups_eq_self h.elements_nodup]

theorem Ran.trans {units units' : List (Node .compilationUnit)} (h : b.Ran m o units b')
    (h' : b'.Ran m o units' b'') : b.Ran m o (units ++ units') b'' where
  model := h'.model
  options := h'.options
  traced := h'.traced
  grown := h.grown.trans h'.grown
  recorders := by
    obtain ⟨new, hnew, hall⟩ := h.recorders
    obtain ⟨new', hnew', hall'⟩ := h'.recorders
    refine ⟨new ++ new', by rw [hnew', hnew, List.append_assoc], ?_⟩
    exact List.rel_append (hall.imp fun _ _ hu => hu.mono h'.grown) hall'
  elements := by
    rw [h'.elements, h.elements, eraseDups_eraseDups_append, List.flatMap_append,
      List.map_append, List.append_assoc]

theorem runOn_enterUnit_error {unit : Node .compilationUnit} {fault : Fault}
    (hu : b.model.unitUris unit.unitElement = .error fault) :
    (enterUnit unit).runOn b = (.error fault, b) := by
  simp only [enterUnit, InPlace.runOn_bind, InPlace.runOn_get, InPlace.runOn_on,
    UriTable.runOn_enterUnit_error hu]

theorem runOn_enterUnit_ok {unit : Node .compilationUnit} {key : UnitKey} {uris : UriTable}
    (hkey : (UriTable.enterUnit b.model unit.unitElement).runOn b.tables.uris = (.ok key, uris)) :
    (enterUnit unit).runOn b =
      (.ok (), { b with tables := { b.tables with uris } }.addUnit key unit) := by
  simp only [enterUnit, InPlace.runOn_bind, InPlace.runOn_get, InPlace.runOn_on, hkey,
    InPlace.runOn_modify]

theorem indexUnit_eq_ok_iff {unit : Node .compilationUnit} :
    b.indexUnit unit = .ok b' ↔ (enterUnit unit).runOn b = (.ok (), b') := by
  rw [← InPlace.outcome_eq_ok_iff, indexUnit]
  cases (enterUnit unit).outcome b with
  | ok result => simp [Except.map, Prod.ext_iff]
  | error fault => simp [Except.map]

theorem indexUnit_error (hm : b.model = m) {unit : Node .compilationUnit} {fault : Fault}
    (hu : m.unitUris unit.unitElement = .error fault) : b.indexUnit unit = .error fault := by
  have houtcome := InPlace.outcome_eq_error_iff.2 ⟨b, runOn_enterUnit_error (hm ▸ hu)⟩
  rw [indexUnit, houtcome]
  rfl

theorem indexUnit_ok (hm : b.model = m) (ho : b.options = o) (h : b.tables.Traced m)
    {unit : Node .compilationUnit} {pair : String × String}
    (hu : m.unitUris unit.unitElement = .ok pair) :
    ∃ b', b.indexUnit unit = .ok b' ∧ b.Ran m o [unit] b' := by
  obtain ⟨key, uris, hkey, hut, huris, hpair⟩ := h.uris.enterUnit hu
  obtain ⟨ht, hext⟩ := h.withUris hut huris
  let start : Recording := { tables := { b.tables with uris }, unit := { key }, log := b.log }
  have hgains := Recording.gains_contribute (r := start) ht o unit
  have hstands : (start.contribute m o unit).tables.uris.pair?
      (start.contribute m o unit).unit.key = some pair := by
    rw [hgains.key]
    exact UriTable.pair?_mono hgains.grown.uris hpair
  subst hm ho
  refine ⟨_, indexUnit_eq_ok_iff.2 (runOn_enterUnit_ok hkey), rfl, rfl, hgains.traced,
    hext.trans hgains.grown, ⟨_, rfl, .cons ⟨⟨pair, hu, hstands⟩, hgains.uses [] rfl⟩ .nil⟩, ?_⟩
  rw [List.flatMap_singleton]
  exact hgains.elements

/-- A step that succeeds interns the URIs of the unit and then adds all it contributes. -/
theorem indexUnit_eq_addUnit (hm : b.model = m) (h : b.tables.Traced m)
    {unit : Node .compilationUnit} (hrun : b.indexUnit unit = .ok b') :
    ∃ key uris, (UriTable.enterUnit m unit.unitElement).runOn b.tables.uris = (.ok key, uris) ∧
      ({ b.tables with uris } : Tables).Traced m ∧
      b' = { b with tables := { b.tables with uris } }.addUnit key unit := by
  subst hm
  cases hu : b.model.unitUris unit.unitElement with
  | error fault => cases (indexUnit_error rfl hu).symm.trans hrun
  | ok pair =>
    obtain ⟨key, uris, hkey, huris, hprefix, -⟩ := h.uris.enterUnit hu
    cases (runOn_enterUnit_ok hkey).symm.trans (indexUnit_eq_ok_iff.1 hrun)
    exact ⟨key, uris, hkey, (h.withUris huris hprefix).1, rfl⟩

theorem indexAll_ok (hm : b.model = m) (ho : b.options = o) (h : b.tables.Traced m)
    {units : List (Node .compilationUnit)}
    (hu : ∀ unit ∈ units, ∃ pair, m.unitUris unit.unitElement = .ok pair) :
    ∃ b', b.indexAll units = (b', none) ∧ b.Ran m o units b' := by
  induction units generalizing b with
  | nil => exact ⟨b, rfl, .refl hm ho h⟩
  | cons unit units ih =>
    obtain ⟨pair, hpair⟩ := hu unit List.mem_cons_self
    obtain ⟨b₁, hstep, hran₁⟩ := indexUnit_ok hm ho h hpair
    obtain ⟨b₂, hrest, hran₂⟩ := ih hran₁.model hran₁.options hran₁.traced
      fun unit hunit => hu unit (List.mem_cons_of_mem _ hunit)
    refine ⟨b₂, ?_, hran₁.trans hran₂⟩
    rw [indexAll, hstep]
    exact hrest

theorem exists_step_of_indexAll (hm : b.model = m) (ho : b.options = o) (h : b.tables.Traced m)
    {unit : Node .compilationUnit} {units : List (Node .compilationUnit)}
    (hrun : b.indexAll (unit :: units) = (b', none)) :
    ∃ b₁, b.indexUnit unit = .ok b₁ ∧ b.Ran m o [unit] b₁ ∧ b₁.indexAll units = (b', none) := by
  cases hp : m.unitUris unit.unitElement with
  | error fault =>
    rw [indexAll, indexUnit_error hm hp] at hrun
    cases hrun
  | ok pair =>
    obtain ⟨b₁, hstep, hran⟩ := indexUnit_ok hm ho h hp
    rw [indexAll, hstep] at hrun
    exact ⟨b₁, hstep, hran, hrun⟩

theorem roots_of_indexAll (hm : b.model = m) (ho : b.options = o) (h : b.tables.Traced m)
    {units : List (Node .compilationUnit)} (hrun : (b.indexAll units).2 = none) :
    ∀ unit ∈ units, ∃ pair, m.unitUris unit.unitElement = .ok pair := by
  induction units generalizing b with
  | nil => simp
  | cons unit units ih =>
    -- a unit without URIs would have stopped the run
    cases hp : m.unitUris unit.unitElement with
    | error fault =>
      rw [indexAll, indexUnit_error hm hp] at hrun
      cases hrun
    | ok pair =>
      obtain ⟨b₁, hstep, hran₁⟩ := indexUnit_ok hm ho h hp
      rw [indexAll, hstep] at hrun
      have hrest := ih hran₁.model hran₁.options hran₁.traced hrun
      intro other hother
      rcases List.mem_cons.1 hother with rfl | hmem
      · exact ⟨pair, hp⟩
      · exact hrest other hmem

theorem reached_indexUnit (hm : b.model = m) (h : b.tables.Reached m)
    {unit : Node .compilationUnit} (hrun : b.indexUnit unit = .ok b') : b'.tables.Reached m := by
  subst hm
  obtain ⟨key, uris, hkey, -, rfl⟩ := indexUnit_eq_addUnit rfl h.traced hrun
  have ht : ({ b.tables with uris } : Tables).Reached b.model :=
    .unit h (InPlace.outcome_eq_ok_iff.2 hkey)
  exact Recording.reached_contribute
    (r := { tables := { b.tables with uris }, unit := { key }, log := b.log }) ht b.options unit

theorem reached_indexAll (hm : b.model = m) (ho : b.options = o) (h : b.tables.Reached m)
    {units : List (Node .compilationUnit)} (hrun : b.indexAll units = (b', none)) :
    b'.tables.Reached m := by
  induction units generalizing b with
  | nil =>
    cases hrun
    exact h
  | cons unit units ih =>
    obtain ⟨b₁, hstep, hran, hrest⟩ := exists_step_of_indexAll hm ho h.traced hrun
    exact ih hran.model hran.options (reached_indexUnit hm h hstep) hrest

end PackageBuilder

def builderOf (m : Model) (o : Options) (units : List (Node .compilationUnit)) :
    PackageBuilder :=
  (PackageBuilder.indexAll { model := m, options := o } units).1

/-- The elements that units use, in the order of first mention. -/
def mentioned (m : Model) (o : Options) (units : List (Node .compilationUnit)) :
    List ElementId :=
  ((units.flatMap (Tree.recordedUses m o)).map (·.target)).eraseDups

theorem mem_mentioned {m : Model} {o : Options} {units : List (Node .compilationUnit)}
    {e : ElementId} :
    e ∈ mentioned m o units ↔ ∃ unit ∈ units, ∃ c ∈ unit.recordedUses m o, c.target = e := by
  simp only [mentioned, List.mem_eraseDups, List.mem_map, List.mem_flatMap]
  constructor
  · rintro ⟨c, ⟨unit, hunit, hc⟩, he⟩
    exact ⟨unit, hunit, c, hc, he⟩
  · rintro ⟨unit, hunit, c, hc, he⟩
    exact ⟨c, ⟨unit, hunit, hc⟩, he⟩

structure FullRun (m : Model) (o : Options) (units : List (Node .compilationUnit)) : Prop where
  finished : PackageBuilder.indexAll { model := m, options := o } units =
    (builderOf m o units, none)
  traced : (builderOf m o units).tables.Traced m
  recorders : List.Forall₂ (UnitRecorder.Holds m o (builderOf m o units).tables) units
    (builderOf m o units).units
  elements : (builderOf m o units).tables.elements.elementIds = mentioned m o units

theorem FullRun.reached {m : Model} {o : Options} {units : List (Node .compilationUnit)}
    (h : FullRun m o units) : (builderOf m o units).tables.Reached m :=
  PackageBuilder.reached_indexAll (b := { model := m, options := o }) rfl rfl .empty h.finished

theorem fullRun_of_roots {m : Model} {o : Options} {units : List (Node .compilationUnit)}
    (hu : ∀ unit ∈ units, ∃ pair, m.unitUris unit.unitElement = .ok pair) : FullRun m o units := by
  obtain ⟨b, hrun, hran⟩ := PackageBuilder.indexAll_ok (b := { model := m, options := o }) rfl rfl
    (Tables.traced_empty m) hu
  obtain ⟨new, hnew, hall⟩ := hran.recorders
  have hb : builderOf m o units = b := by rw [builderOf, hrun]
  have hunits : b.units = new := hnew
  rw [← hb] at hunits hall hran hrun
  refine ⟨hrun, hran.traced, hunits ▸ hall, ?_⟩
  rw [hran.elements, mentioned]
  rfl

theorem roots_of_indexUnits {m : Model} {o : Options} {units : List (Node .compilationUnit)}
    {p : PackageIndex} (h : (indexUnits m o units).1 = .ok p) :
    ∀ unit ∈ units, ∃ pair, m.unitUris unit.unitElement = .ok pair := by
  refine PackageBuilder.roots_of_indexAll (b := { model := m, options := o }) rfl rfl
    (Tables.traced_empty m) ?_
  unfold indexUnits at h
  split at h
  · cases h
  · rename_i hrun
    rw [hrun]

end UsageIndex
