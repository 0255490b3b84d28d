import UsageIndex.Proofs.Element.Homes
import UsageIndex.Proofs.Package.Calls
import UsageIndex.Proofs.Package.Growth

/-!
Which lists of units can be indexed. A unit is turned away only for its root: the root element,
or what encloses it, is not in the model or does not say where it comes from. So a run goes on to
the first bad root and fails there, or has an index; nothing else in the trees counts.
-/

set_option autoImplicit false

namespace UsageIndex

namespace Model

def HasSource (m : Model) (id : ElementId) : Prop :=
  ∃ element uri, m.get? id = some element ∧ element.sourceUri = some uri

/-- A unit may have this element for its root: the element has a source, and so has what encloses
it, if anything does. -/
structure IsRoot (m : Model) (root : ElementId) : Prop where
  own : m.HasSource root
  outer : ∀ element outer, m.get? root = some element → element.enclosing = some outer →
    m.HasSource outer

/-- The fault for which no unit may have this root. What encloses the root comes second. -/
inductive LacksRoot (m : Model) (root : ElementId) : Fault → Prop where
  | own {fault : Fault} (h : m.LacksSource root fault) : LacksRoot m root fault
  | outer {outer : ElementId} {element : Element} {uri : String} {fault : Fault}
      (hget : m.get? root = some element) (huri : element.sourceUri = some uri)
      (houter : element.enclosing = some outer) (h : m.LacksSource outer fault) :
      LacksRoot m root fault

variable {m : Model} {root : ElementId}

theorem hasSource_iff {id : ElementId} : m.HasSource id ↔ ∃ uri, m.sourceUri id = .ok uri := by
  constructor
  · rintro ⟨element, uri, hget, huri⟩
    exact ⟨uri, sourceUri_eq_ok_iff.2 ⟨element, hget, huri⟩⟩
  · rintro ⟨uri, h⟩
    obtain ⟨element, hget, huri⟩ := sourceUri_eq_ok_iff.1 h
    exact ⟨element, uri, hget, huri⟩

theorem unitUris_eq_error_iff_lacksRoot {fault : Fault} :
    m.unitUris root = .error fault ↔ m.LacksRoot root fault := by
  rw [unitUris_eq_error_iff]
  constructor
  · rintro (h | ⟨element, uri, outer, hget, huri, houter, h⟩)
    · exact .own h
    · exact .outer hget huri houter h
  · rintro (h | ⟨hget, huri, houter, h⟩)
    · exact .inl h
    · exact .inr ⟨_, _, _, hget, huri, houter, h⟩

theorem LacksSource.not_hasSource {id : ElementId} {fault : Fault} (h : m.LacksSource id fault) :
    ¬ m.HasSource id := by
  intro hsource
  obtain ⟨uri, huri⟩ := hasSource_iff.1 hsource
  rw [sourceUri_eq_error_iff.2 h] at huri
  cases huri

theorem LacksRoot.not_isRoot {fault : Fault} (h : m.LacksRoot root fault) : ¬ m.IsRoot root := by
  intro hroot
  cases h with
  | own h => exact h.not_hasSource hroot.own
  | outer hget huri houter h => exact h.not_hasSource (hroot.outer _ _ hget houter)

theorem isRoot_iff : m.IsRoot root ↔ ∃ pair, m.unitUris root = .ok pair := by
  constructor
  · intro h
    cases hpair : m.unitUris root with
    | ok pair => exact ⟨pair, rfl⟩
    | error fault => exact absurd h (unitUris_eq_error_iff_lacksRoot.1 hpair).not_isRoot
  · rintro ⟨⟨libraryUri, unitUri⟩, hpair⟩
    obtain ⟨hown, houter⟩ := unitUris_eq_ok hpair
    refine ⟨hasSource_iff.2 ⟨unitUri, hown⟩, ?_⟩
    intro element outer hget he
    rw [hget, Option.bind_some, he] at houter
    obtain ⟨hnone, -⟩ | ⟨library, hlibrary, hsource⟩ := houter
    · cases hnone
    · obtain rfl := Option.some.inj hlibrary
      exact hasSource_iff.2 ⟨libraryUri, hsource⟩

end Model

/-- The units are turned away for this fault at the first of them that has no root. -/
def FirstLacksRoot (m : Model) (units : List (Node .compilationUnit)) (fault : Fault) : Prop :=
  ∃ before unit after, units = before ++ unit :: after ∧
    (∀ other ∈ before, m.IsRoot other.unitElement) ∧
    m.unitUris unit.unitElement = .error fault ∧ m.LacksRoot unit.unitElement fault

variable {m : Model} {o : Options} {units : List (Node .compilationUnit)}

theorem isRoot_or_firstLacksRoot (m : Model) (units : List (Node .compilationUnit)) :
    (∀ unit ∈ units, m.IsRoot unit.unitElement) ∨ ∃ fault, FirstLacksRoot m units fault := by
  induction units with
  | nil => exact .inl (by simp)
  | cons unit rest ih =>
    cases hpair : m.unitUris unit.unitElement with
    | error fault =>
      exact .inr ⟨fault, [], unit, rest, rfl, by simp, hpair,
        Model.unitUris_eq_error_iff_lacksRoot.1 hpair⟩
    | ok pair =>
      have hunit : m.IsRoot unit.unitElement := Model.isRoot_iff.2 ⟨pair, hpair⟩
      rcases ih with hall | ⟨fault, before, bad, after, rfl, hbefore, hfault⟩
      · exact .inl (List.forall_mem_cons.2 ⟨hunit, hall⟩)
      · exact .inr ⟨fault, unit :: before, bad, after, rfl,
          List.forall_mem_cons.2 ⟨hunit, hbefore⟩, hfault⟩

theorem FirstLacksRoot.not_isRoot {fault : Fault} (h : FirstLacksRoot m units fault) :
    ¬ ∀ unit ∈ units, m.IsRoot unit.unitElement := by
  obtain ⟨before, unit, after, rfl, -, -, hlacks⟩ := h
  exact fun hall => hlacks.not_isRoot (hall unit (by simp))

theorem FirstLacksRoot.congr {units' : List (Node .compilationUnit)} {fault : Fault}
    (h : FirstLacksRoot m units fault)
    (hroots : units'.map Tree.unitElement = units.map Tree.unitElement) :
    FirstLacksRoot m units' fault := by
  obtain ⟨before, unit, after, rfl, hbefore, hpair, hlacks⟩ := h
  rw [List.map_append, List.map_cons] at hroots
  obtain ⟨before', rest', rfl, hbefore', hrest'⟩ := List.map_eq_append_iff.1 hroots
  obtain ⟨unit', after', rfl, hunit', -⟩ := List.map_eq_cons_iff.1 hrest'
  refine ⟨before', unit', after', rfl, ?_, hunit' ▸ hpair, hunit' ▸ hlacks⟩
  have hall : ∀ root ∈ before.map Tree.unitElement, m.IsRoot root := List.forall_mem_map.2 hbefore
  rw [← hbefore'] at hall
  exact List.forall_mem_map.1 hall

theorem FullRun.of_isRoot (h : ∀ unit ∈ units, m.IsRoot unit.unitElement) : FullRun m o units :=
  fullRun_of_roots fun unit hunit => Model.isRoot_iff.1 (h unit hunit)

theorem indexAll_of_firstLacksRoot (o : Options) {before : List (Node .compilationUnit)}
    {unit : Node .compilationUnit} {fault : Fault}
    (h : ∀ other ∈ before, m.IsRoot other.unitElement)
    (hunit : m.unitUris unit.unitElement = .error fault)
    (after : List (Node .compilationUnit)) :
    PackageBuilder.indexAll { model := m, options := o } (before ++ unit :: after) =
      (builderOf m o before, some fault) := by
  obtain ⟨b, hrun, hran⟩ := PackageBuilder.indexAll_ok (b := { model := m, options := o }) rfl rfl
    (Tables.traced_empty m) fun other hother => Model.isRoot_iff.1 (h other hother)
  have hb : builderOf m o before = b := by rw [builderOf, hrun]
  rw [PackageBuilder.indexAll_append hrun, PackageBuilder.indexAll,
    PackageBuilder.indexUnit_error hran.model hunit, hb]

theorem FirstLacksRoot.indexUnits_eq {fault : Fault} (h : FirstLacksRoot m units fault)
    (o : Options) : (indexUnits m o units).1 = .error fault := by
  obtain ⟨before, unit, after, rfl, hbefore, hpair, -⟩ := h
  rw [indexUnits, indexAll_of_firstLacksRoot o hbefore hpair]

theorem exists_indexUnits_iff :
    (∃ p, (indexUnits m o units).1 = .ok p) ↔ ∀ unit ∈ units, m.IsRoot unit.unitElement := by
  constructor
  · rintro ⟨p, hp⟩ unit hunit
    exact Model.isRoot_iff.2 (roots_of_indexUnits hp unit hunit)
  · intro h
    exact ⟨_, (FullRun.of_isRoot h).indexUnits_eq⟩

theorem indexUnits_eq_error_iff {fault : Fault} :
    (indexUnits m o units).1 = .error fault ↔ FirstLacksRoot m units fault := by
  refine ⟨fun hfault => ?_, fun h => h.indexUnits_eq o⟩
  rcases isRoot_or_firstLacksRoot m units with hall | ⟨other, hother⟩
  · rw [(FullRun.of_isRoot hall).indexUnits_eq] at hfault
    cases hfault
  · obtain rfl := Except.error.inj ((hother.indexUnits_eq o).symm.trans hfault)
    exact hother

/-- Units have an index just if each of them has a root. If not, they are turned away at the first
that has none, for what its root lacks. The roots alone decide between the two, whatever the
options are and whatever else stands in the trees. -/
theorem indexUnits_settled_by_roots (m : Model) (o : Options)
    (units : List (Node .compilationUnit)) :
    ((∃ p, (indexUnits m o units).1 = .ok p) ↔ ∀ unit ∈ units, m.IsRoot unit.unitElement) ∧
    (∀ fault, (indexUnits m o units).1 = .error fault ↔ FirstLacksRoot m units fault) ∧
    (∀ (o' : Options) (units' : List (Node .compilationUnit)),
      units'.map Tree.unitElement = units.map Tree.unitElement →
      (indexUnits m o' units').1.map (fun _ => ()) = (indexUnits m o units).1.map fun _ => ()) := by
  refine ⟨exists_indexUnits_iff, fun fault => indexUnits_eq_error_iff, ?_⟩
  intro o' units' hroots
  cases hresult : (indexUnits m o units).1 with
  | error fault =>
    rw [((indexUnits_eq_error_iff.1 hresult).congr hroots).indexUnits_eq o']
  | ok p =>
    have hall : ∀ root ∈ units.map Tree.unitElement, m.IsRoot root :=
      List.forall_mem_map.2 (exists_indexUnits_iff.1 ⟨p, hresult⟩)
    rw [← hroots] at hall
    obtain ⟨p', hp'⟩ := exists_indexUnits_iff.2 (List.forall_mem_map.1 hall)
    rw [hp']
    rfl

/-- A unit is turned away for the class around its root, and so is another with the same root, under
other options and for all the uses in it. -/
theorem indexUnits_settled_by_roots_sample :
    (indexUnits Sample.brokenModel {} [Sample.unitA, Sample.brokenUnit]).1 =
        .error (.missingSourceUri ⟨2⟩) ∧
      (indexUnits Sample.brokenModel .withDefinitions [.emptyUnit ⟨1⟩,
        Sample.unit ⟨6⟩ ⟨⟨"C", 6⟩, none⟩ ⟨⟨"A", 16⟩, some ⟨2⟩⟩ ⟨⟨"X", 18⟩, some ⟨99⟩⟩]).1.map
          (fun _ => ()) = .error (.missingSourceUri ⟨2⟩) := by
  obtain ⟨-, hfault, hsame⟩ := indexUnits_settled_by_roots Sample.brokenModel {}
    [Sample.unitA, Sample.brokenUnit]
  have hfirst : FirstLacksRoot Sample.brokenModel [Sample.unitA, Sample.brokenUnit]
      (.missingSourceUri ⟨2⟩) := by
    refine ⟨[Sample.unitA], Sample.brokenUnit, [], rfl, ?_, rfl, ?_⟩
    · intro other hother
      obtain rfl := List.mem_singleton.1 hother
      exact Model.isRoot_iff.2 ⟨("a", "a"), rfl⟩
    · exact .outer rfl rfl rfl (.missing rfl rfl)
  have hresult := (hfault _).2 hfirst
  have hother := hsame .withDefinitions [.emptyUnit ⟨1⟩,
    Sample.unit ⟨6⟩ ⟨⟨"C", 6⟩, none⟩ ⟨⟨"A", 16⟩, some ⟨2⟩⟩ ⟨⟨"X", 18⟩, some ⟨99⟩⟩] rfl
  rw [hresult] at hother
  exact ⟨hresult, hother⟩

end UsageIndex
