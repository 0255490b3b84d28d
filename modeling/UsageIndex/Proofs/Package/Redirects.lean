import UsageIndex.Proofs.Package.Trails
import UsageIndex.Proofs.Unit.Redirects

/-!
An index knows no redirects to other constructors. What mentions a synthetic constructor that
redirects to another one counts as one use of that other one, or as none if it is never indexed;
and the name inside such a mention counts for nothing.
-/

set_option autoImplicit false

namespace UsageIndex

variable {m : Model} {o : Options} {units : List (Node .compilationUnit)}

theorem Model.KeepsConstructorsApart.redirects_self_of_mentioned
    (h : m.KeepsConstructorsApart units) (hm : m.RedirectsOnce) {e : ElementId}
    (he : e ∈ mentioned m o units) : m.IsRedirect e → m.Redirects e e := by
  obtain ⟨unit, hunit, c, hc, rfl⟩ := mem_mentioned.1 he
  exact h.redirects_self_of_candidates hm hunit (List.mem_filter.1 hc).1

/-- On this trail, what mentions a redirect produces one reference to the constructor behind it if
that is indexed, and nothing otherwise; the name of a constructor produces nothing. -/
def Model.RedirectsAlong (m : Model) (trail : Trail) : Prop :=
  ∀ n us, (n, us) ∈ trail →
    (∀ mention e r, n.constructorMention? = some mention → mention.target = some e →
      m.Redirects e r →
        us = if m.isIndexed r then [⟨r, .isReferencedBy, mention.location⟩] else []) ∧
    (∀ i e, n.reference? = some i → i.element = some e → m.IsConstructor e → us = [])

theorem Tree.redirectsAlong_trail (m : Model) (o : Options) (unit : Node .compilationUnit) :
    m.RedirectsAlong (unit.trail m o) := by
  intro n us h
  obtain ⟨claimed, rfl⟩ := mem_trailOf h
  constructor
  · intro mention e r hmention he hr
    exact SomeNode.indexedUses_shown_of_redirects hmention he hr o claimed
  · intro i e hi he hc
    rw [SomeNode.shown_eq_nil_of_isConstructor hi he hc]
    rfl

/-- If no redirect leads to another redirect and only the places for constructors mention
constructors, no element and no row of an index is a redirect, save one that redirects to itself;
and the rows of a unit come from a walk on which each mention of a redirect stands for the
constructor behind it. -/
theorem redirects_replaced {p : PackageIndex} (hm : m.RedirectsOnce)
    (hplaces : m.KeepsConstructorsApart units) (h : (indexUnits m o units).1 = .ok p) :
    (∀ n < p.elementCount, ∃ e,
      (∀ e', (builderOf m o units).tables.elements.assignIds.Numbers n e' ↔ e' = e) ∧
        p.Describes m n e ∧ (m.IsRedirect e → m.Redirects e e)) ∧
    (∀ u ∈ p.units, ∀ row ∈ u.usages, ∃ e,
      (∀ e', (builderOf m o units).tables.elements.assignIds.Numbers row.element.toNat e' ↔
        e' = e) ∧ (m.IsRedirect e → m.Redirects e e)) ∧
    ∀ (k : Nat) (unit : Node .compilationUnit), units[k]? = some unit →
      ∃ recorder u trail, (builderOf m o units).units[k]? = some recorder ∧
        p.units[k]? = some u ∧ (builderOf m o units).ShowsTrail m o unit recorder trail u ∧
        m.RedirectsAlong trail := by
  have hrun : FullRun m o units := fullRun_of_roots (roots_of_indexUnits h)
  have hshows := shows_of_indexUnits h
  refine ⟨?_, ?_, ?_⟩
  · intro n hn
    rw [hshows.elementCount_eq] at hn
    obtain ⟨e, he, hnumber, hget⟩ := hrun.exists_numbered hn
    exact ⟨e, hnumber, hshows.described n e hget, hplaces.redirects_self_of_mentioned hm he⟩
  · intro u hu row hrow
    have hn := hshows.lt_elementCount_iff.2 ⟨u, hu, row, hrow, rfl⟩
    rw [hshows.elementCount_eq] at hn
    obtain ⟨e, he, hnumber, -⟩ := hrun.exists_numbered hn
    exact ⟨e, hnumber, hplaces.redirects_self_of_mentioned hm he⟩
  · intro k unit hk
    obtain ⟨recorder, u, hrecorder, hu, htrail⟩ := hrun.showsTrail hshows hk
    exact ⟨recorder, u, _, hrecorder, hu, htrail, unit.redirectsAlong_trail m o⟩

namespace Sample

/-- A class `B` that extends `A`, with two synthetic constructors: one redirects to the constructor
`named`, the other to one that belongs to no unit. -/
def redirectingModel : Model := ⟨[
  { kind := .library, name := "", nameOffset := 0, sourceUri := some "b",
    definingUnit := some ⟨1⟩ },
  { kind := .compilationUnit, name := "", nameOffset := 0, sourceUri := some "b",
    enclosing := some ⟨0⟩ },
  { kind := .classType, name := "B", nameOffset := 6, enclosing := some ⟨1⟩,
    supertype := some ⟨8⟩ },
  { kind := .constructor, name := "", nameOffset := 10, enclosing := some ⟨2⟩ },
  { kind := .constructor, name := "named", nameOffset := 45, enclosing := some ⟨2⟩ },
  { kind := .constructor, name := "named", nameOffset := 0, enclosing := some ⟨2⟩,
    isSynthetic := true, redirectedConstructor := some ⟨4⟩ },
  { kind := .constructor, name := "lost", nameOffset := 0 },
  { kind := .constructor, name := "lost", nameOffset := 0, enclosing := some ⟨2⟩,
    isSynthetic := true, redirectedConstructor := some ⟨6⟩ },
  { kind := .classType, name := "A", nameOffset := 60, enclosing := some ⟨1⟩ }]⟩

/-- The invocation `this.named()`, where the name resolves to the constructor, too. -/
def thisNamed (constructor : ElementId) : Node .redirectingConstructorInvocation :=
  .node _ (.slot (.token ⟨"this", 16⟩) (.slot (.present (.token ⟨".", 20⟩))
    (.slot (.present (.simpleIdentifier ⟨⟨"named", 21⟩, some constructor⟩))
      (.slot (.argumentList 26 [] 27) (.slot (.ofElement? (some constructor)) .done)))))

/-- The invocation `super lost()` with a name but no period. -/
def superLost : Node .superConstructorInvocation :=
  .node _ (.slot (.token ⟨"super", 30⟩) (.slot .absent
    (.slot (.present (.simpleIdentifier ⟨⟨"lost", 36⟩, some ⟨7⟩⟩))
      (.slot (.argumentList 40 [] 41) (.slot (.ofElement? (some ⟨7⟩)) .done)))))

def unitOfB (initializers : List (Node .constructorInitializer)) : Node .compilationUnit :=
  let constructor : Node .constructorDeclaration :=
    .node _ (.slot .absent (.slot (.declaredIdentifier ⟨⟨"B", 10⟩, some ⟨2⟩⟩) (.slot .absent
      (.slot .absent (.slot (.ofElement? (some ⟨3⟩)) (.slot (.formalParameterList [])
        (.slot (.ofList initializers) (.slot .absent (.slot .emptyBody .done)))))))))
  let declared : Node .classDeclaration :=
    .node _ (.slot .absent (.slot (.token ⟨"class", 0⟩)
      (.slot (.declaredIdentifier ⟨⟨"B", 6⟩, some ⟨2⟩⟩) (.slot .nil (.slot .absent (.slot .absent
        (.slot .absent (.slot (.ofList [.node _ (.here constructor)]) .done))))))))
  Tree.addDeclaration (.emptyUnit ⟨1⟩) (.node _ (.here declared))

def redirectingUnit : Node .compilationUnit :=
  unitOfB [.node _ (.there (.here (thisNamed ⟨5⟩))), .node _ (.there (.there (.here superLost)))]

def redirectingIndex : PackageIndex where
  libraryUris := [0, 0]
  unitUris := [0, 0]
  elementUnits := [0, 0]
  elementOffsets := [45, 60]
  uris := ["b"]
  units := [.ofUsages 0 0 [⟨0, .isReferencedBy, ⟨20, 6⟩⟩, ⟨1, .isExtendedBy, ⟨6, 1⟩⟩]]

theorem indexUnits_eq_redirectingIndex :
    (indexUnits redirectingModel {} [redirectingUnit]).1 = .ok redirectingIndex :=
  indexUnits_eq_ok (by decide +kernel) (by decide +kernel)

theorem redirectsOnce_redirectingModel : redirectingModel.RedirectsOnce := by
  rintro e r ⟨element, he, -, -, hr⟩ ⟨r', next, hnext, -, -, hr'⟩
  have hmem : element ∈ redirectingModel.elements := List.mem_of_getElem? he
  simp only [redirectingModel, List.mem_cons, List.not_mem_nil, or_false] at hmem
  rcases hmem with rfl | rfl | rfl | rfl | rfl | rfl | rfl | rfl | rfl
  all_goals cases hr
  -- what is left are the two redirects, and neither target redirects further
  all_goals
    cases hnext
    cases hr'

theorem keepsConstructorsApart_redirectingUnit :
    redirectingModel.KeepsConstructorsApart [redirectingUnit] where
  links := by
    rintro e ⟨element, hmem, hlink⟩ ⟨target, htarget, hk⟩
    simp only [redirectingModel, List.mem_cons, List.not_mem_nil, or_false] at hmem
    rcases hmem with rfl | rfl | rfl | rfl | rfl | rfl | rfl | rfl | rfl
    all_goals simp at hlink
    subst hlink
    cases htarget
    cases hk
  mentions := by
    intro unit hunit
    obtain rfl := List.mem_singleton.1 hunit
    decide

end Sample

/-- The constructor behind the first redirect is referred to from the period through the name; the
one behind the second has no home. -/
theorem redirects_replaced_sample :
    Sample.redirectingModel.RedirectsOnce ∧
      Sample.redirectingModel.KeepsConstructorsApart [Sample.redirectingUnit] ∧
      (indexUnits Sample.redirectingModel {} [Sample.redirectingUnit]).1 =
        .ok Sample.redirectingIndex ∧
      (∀ u ∈ Sample.redirectingIndex.units, ∀ row ∈ u.usages, ∃ e,
        (∀ e', (builderOf Sample.redirectingModel {}
          [Sample.redirectingUnit]).tables.elements.assignIds.Numbers row.element.toNat e' ↔
            e' = e) ∧ (Sample.redirectingModel.IsRedirect e →
              Sample.redirectingModel.Redirects e e)) ∧
      ∃ recorder u trail, Sample.redirectingIndex.units[0]? = some u ∧
        (builderOf Sample.redirectingModel {} [Sample.redirectingUnit]).ShowsTrail
          Sample.redirectingModel {} Sample.redirectingUnit recorder trail u ∧
        (⟨Sample.thisNamed ⟨5⟩⟩, [⟨⟨4⟩, .isReferencedBy, ⟨20, 6⟩⟩]) ∈ trail ∧
        (⟨Sample.superLost⟩, []) ∈ trail := by
  have hindex := Sample.indexUnits_eq_redirectingIndex
  obtain ⟨-, hrows, hall⟩ := redirects_replaced Sample.redirectsOnce_redirectingModel
    Sample.keepsConstructorsApart_redirectingUnit hindex
  refine ⟨Sample.redirectsOnce_redirectingModel, Sample.keepsConstructorsApart_redirectingUnit,
    hindex, hrows, ?_⟩
  obtain ⟨recorder, u, trail, -, hu, htrail, halong⟩ := hall 0 _ rfl
  have hproduced : ∀ (i : Nat) (n : SomeNode), Sample.redirectingUnit.nodes[i]? = some n →
      ∃ us, (n, us) ∈ trail := by
    intro i n hn
    rw [← htrail.nodes, List.getElem?_map] at hn
    obtain ⟨⟨n, us⟩, hmem, rfl⟩ := Option.map_eq_some_iff.1 hn
    exact ⟨us, List.mem_of_getElem? hmem⟩
  obtain ⟨us, hthis⟩ := hproduced 9 ⟨Sample.thisNamed ⟨5⟩⟩ rfl
  obtain ⟨us', hsuper⟩ := hproduced 13 ⟨Sample.superLost⟩ rfl
  obtain rfl := (halong _ _ hthis).1 _ ⟨5⟩ ⟨4⟩ rfl rfl ⟨_, rfl, rfl, rfl, rfl⟩
  obtain rfl := (halong _ _ hsuper).1 _ ⟨7⟩ ⟨6⟩ rfl rfl ⟨_, rfl, rfl, rfl, rfl⟩
  have hnamed : Sample.redirectingModel.isIndexed ⟨4⟩ = true := by decide
  have hlost : Sample.redirectingModel.isIndexed ⟨6⟩ = false := by decide
  rw [hnamed] at hthis
  rw [hlost] at hsuper
  exact ⟨recorder, u, trail, hu, htrail, hthis, hsuper⟩

namespace Sample

/-- A class `B` with a synthetic constructor that redirects to itself. -/
def circularModel : Model := ⟨[
  { kind := .library, name := "", nameOffset := 0, sourceUri := some "b",
    definingUnit := some ⟨1⟩ },
  { kind := .compilationUnit, name := "", nameOffset := 0, sourceUri := some "b",
    enclosing := some ⟨0⟩ },
  { kind := .classType, name := "B", nameOffset := 6, enclosing := some ⟨1⟩ },
  { kind := .constructor, name := "", nameOffset := 10, enclosing := some ⟨2⟩ },
  { kind := .constructor, name := "named", nameOffset := 0, enclosing := some ⟨2⟩,
    isSynthetic := true, redirectedConstructor := some ⟨4⟩ }]⟩

def circularUnit : Node .compilationUnit := unitOfB [.node _ (.there (.here (thisNamed ⟨4⟩)))]

def circularIndex : PackageIndex where
  libraryUris := [0]
  unitUris := [0]
  elementUnits := [0]
  elementOffsets := [0]
  uris := ["b"]
  units := [.ofUsages 0 0 [⟨0, .isReferencedBy, ⟨20, 6⟩⟩]]

theorem eq_of_isRedirect_circularModel {e : ElementId} (h : circularModel.IsRedirect e) :
    e = ⟨4⟩ := by
  obtain ⟨r, element, he, -, -, hr⟩ := h
  obtain ⟨i⟩ := e
  unfold Model.get? at he
  rcases hi : i.toNat with _ | _ | _ | _ | _ | n
  all_goals
    rw [hi] at he
    cases he
  all_goals cases hr
  exact congrArg ElementId.mk (UInt32.toNat_inj.1 hi)

theorem redirectsOnce_circularModel : circularModel.RedirectsOnce := by
  intro e r he hr
  rw [eq_of_isRedirect_circularModel hr, eq_of_isRedirect_circularModel ⟨r, he⟩]

theorem keepsConstructorsApart_circularUnit :
    circularModel.KeepsConstructorsApart [circularUnit] where
  links := by
    rintro e ⟨element, hmem, hlink⟩
    simp only [circularModel, List.mem_cons, List.not_mem_nil, or_false] at hmem
    rcases hmem with rfl | rfl | rfl | rfl | rfl
    all_goals simp at hlink
  mentions := by
    intro unit hunit
    obtain rfl := List.mem_singleton.1 hunit
    decide

end Sample

/-- Redirection is followed one step, so a constructor that redirects to itself is indexed, though
it leads to no other redirect. -/
theorem circular_redirect_indexed :
    Sample.circularModel.RedirectsOnce ∧
      Sample.circularModel.KeepsConstructorsApart [Sample.circularUnit] ∧
      (indexUnits Sample.circularModel {} [Sample.circularUnit]).1 = .ok Sample.circularIndex ∧
      ∃ u ∈ Sample.circularIndex.units, ∃ row ∈ u.usages, ∃ e,
        (builderOf Sample.circularModel {}
          [Sample.circularUnit]).tables.elements.assignIds.Numbers row.element.toNat e ∧
        Sample.circularModel.IsRedirect e := by
  have hnumbers : (builderOf Sample.circularModel {}
      [Sample.circularUnit]).tables.elements.assignIds.Numbers 0 ⟨4⟩ := by
    unfold ElementTable.Numbers
    decide +kernel
  have hredirect : Sample.circularModel.IsRedirect ⟨4⟩ := ⟨⟨4⟩, _, rfl, rfl, rfl, rfl⟩
  refine ⟨Sample.redirectsOnce_circularModel, Sample.keepsConstructorsApart_circularUnit,
    by decide +kernel, ?_⟩
  exact ⟨_, List.mem_cons_self, ⟨0, .isReferencedBy, ⟨20, 6⟩⟩, by decide, ⟨4⟩, hnumbers, hredirect⟩

end UsageIndex
