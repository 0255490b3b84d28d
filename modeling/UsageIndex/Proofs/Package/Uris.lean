import UsageIndex.Proofs.Package.Consistency

/-!
The URIs of an index. A URI enters the table with the first unit or element that needs it: a unit
brings its own URIs before it is walked, and an element brings those of its home when it is first
recorded. Nothing else brings any, so the table holds just the URIs that entries and elements
point to.
-/

set_option autoImplicit false

namespace UsageIndex

def uriPair : Except Fault (String × String) → List String
  | .ok (libraryUri, unitUri) => [libraryUri, unitUri]
  | .error _ => []

/-- The URIs that units bring, given the root and the recorded elements of each: its own, then
those of the elements that are not `known` from the units before. -/
def broughtUris (m : Model) : (known : List ElementId) → List (ElementId × List ElementId) →
    List String
  | _, [] => []
  | known, (root, recorded) :: rest =>
    uriPair (m.unitUris root) ++
      ((recorded.removeAll known).eraseDups.flatMap fun e => uriPair (m.homeUris e)) ++
      broughtUris m (known ++ recorded) rest

theorem broughtUris_congr {m : Model} {known known' : List ElementId}
    (h : ∀ e, e ∈ known ↔ e ∈ known') (items : List (ElementId × List ElementId)) :
    broughtUris m known items = broughtUris m known' items := by
  induction items generalizing known known' with
  | nil => rfl
  | cons item rest ih =>
    have hnew : item.2.removeAll known = item.2.removeAll known' := by
      refine List.filter_congr fun e _ => ?_
      simp [h e]
    have hrest : ∀ e, e ∈ known ++ item.2 ↔ e ∈ known' ++ item.2 := by
      intro e
      simp only [List.mem_append, h e]
    simp only [broughtUris, hnew, ih hrest]

theorem mem_broughtUris {m : Model} {known : List ElementId}
    {items : List (ElementId × List ElementId)} {uri : String}
    (h : uri ∈ broughtUris m known items) :
    ∃ item ∈ items, uri ∈ uriPair (m.unitUris item.1) ∨
      ∃ e ∈ item.2, uri ∈ uriPair (m.homeUris e) := by
  induction items generalizing known with
  | nil => cases h
  | cons item rest ih =>
    simp only [broughtUris, List.mem_append, List.mem_flatMap, List.mem_eraseDups] at h
    rcases h with (hroot | ⟨e, he, huri⟩) | hrest
    · exact ⟨item, List.mem_cons_self, .inl hroot⟩
    · exact ⟨item, List.mem_cons_self, .inr ⟨e, List.mem_of_mem_filter he, huri⟩⟩
    · obtain ⟨other, hother, hcases⟩ := ih hrest
      exact ⟨other, List.mem_cons_of_mem _ hother, hcases⟩

namespace UriTable

variable {t : UriTable}

theorem uris_intern_eq_eraseDups (h : t.uris.Nodup) (uri : String) :
    (t.intern uri).2.uris = (t.uris ++ [uri]).eraseDups := by
  rw [uris_intern]
  split
  · exact (eraseDups_append_of_mem h ‹_›).symm
  · exact (eraseDups_append_of_not_mem h ‹_›).symm

theorem uris_enterUnit {m : Model} (h : t.uris.Nodup) {unit : ElementId} {key : UnitKey}
    {t' : UriTable} (hrun : (enterUnit m unit).runOn t = (.ok key, t')) :
    t'.uris = (t.uris ++ uriPair (m.unitUris unit)).eraseDups := by
  cases hu : m.unitUris unit with
  | error fault => cases (runOn_enterUnit_error hu t).symm.trans hrun
  | ok pair =>
    cases (runOn_enterUnit_ok hu t).symm.trans hrun
    rw [uris_intern_eq_eraseDups (nodup_uris_intern h pair.1), uris_intern_eq_eraseDups h,
      eraseDups_eraseDups_append, List.append_assoc]
    rfl

end UriTable

namespace Tables

structure Adds (m : Model) (t : Tables) (new : List ElementId) (t' : Tables) : Prop where
  elements : t'.elements.elementIds = t.elements.elementIds ++ new
  uris : t'.uris.uris = (t.uris.uris ++ new.flatMap fun e => uriPair (m.homeUris e)).eraseDups

variable {m : Model} {t t' t'' : Tables}

theorem Adds.refl (h : t.Traced m) : t.Adds m [] t where
  elements := (List.append_nil _).symm
  uris := by simp [eraseDups_eq_self h.uris.nodup]

theorem Adds.trans {new new' : List ElementId} (h : t.Adds m new t') (h' : t'.Adds m new' t'') :
    t.Adds m (new ++ new') t'' where
  elements := by rw [h'.elements, h.elements, List.append_assoc]
  uris := by
    rw [h'.uris, h.uris, eraseDups_eraseDups_append, List.flatMap_append, List.append_assoc]

theorem Traced.adds_enter (h : t.Traced m) (e : ElementId) :
    ∃ new, t.Adds m new ((enter m e).runOn t).2 := by
  obtain ⟨handle, -, hrun⟩ | ⟨-, fault, -, hrun⟩ |
    ⟨-, element, unit, pair, key, uris, -, hhome, hunit, hkey, hrun⟩ := t.enter_cases m e
  · rw [hrun]
    exact ⟨[], .refl h⟩
  · rw [hrun]
    exact ⟨[], .refl h⟩
  · rw [hrun]
    refine ⟨[e], ?_, ?_⟩
    · simp [ElementTable.elementIds, appended, ElementTable.insert,
        ElementTable.records_internUnit]
    · rw [List.flatMap_singleton, hhome, ← hunit]
      exact UriTable.uris_enterUnit h.uris.nodup hkey

end Tables

namespace Recording

variable {m : Model} {r : Recording}

theorem adds_add (h : r.tables.Traced m) (c : Candidate) :
    ∃ new, r.tables.Adds m new (r.add m c).2.tables := by
  obtain ⟨new, hnew⟩ := h.adds_enter c.target
  refine ⟨new, ?_⟩
  rwa [tables_add]

theorem adds_addAll (h : r.tables.Traced m) (cs : List Candidate) :
    ∃ new, r.tables.Adds m new (r.addAll m cs).tables := by
  induction cs generalizing r with
  | nil => exact ⟨[], .refl h⟩
  | cons c cs ih =>
    have hstep : ∃ new, r.tables.Adds m new
        (if m.isFiltered c.target then r else (r.add m c).2).tables := by
      split
      · exact ⟨[], .refl h⟩
      · exact adds_add h c
    obtain ⟨new, hnew⟩ := hstep
    obtain ⟨rest, hrest⟩ := ih (gains_step h c).traced
    exact ⟨new ++ rest, hnew.trans hrest⟩

/-- What a unit adds are the elements it is the first to record, in the order of recording. -/
theorem adds_contribute (h : r.tables.Traced m) (o : Options) (unit : Node .compilationUnit) :
    r.tables.Adds m
      (((unit.recordedUses m o).map (·.target)).removeAll r.tables.elements.elementIds).eraseDups
      (r.contribute m o unit).tables := by
  have hgains := gains_contribute (r := r) h o unit
  obtain ⟨new, hnew⟩ : ∃ new, r.tables.Adds m new (r.contribute m o unit).tables := by
    rw [contribute_eq]
    exact adds_addAll h _
  have hsame := hnew.elements.symm.trans hgains.elements
  rw [List.eraseDups_append, eraseDups_eq_self h.elements_nodup, List.append_cancel_left_eq]
    at hsame
  exact hsame ▸ hnew

end Recording

def Tree.rootAndTargets (m : Model) (o : Options) (unit : Node .compilationUnit) :
    ElementId × List ElementId :=
  (unit.unitElement, (unit.recordedUses m o).map (·.target))

namespace PackageBuilder

variable {m : Model} {o : Options} {b b' : PackageBuilder}

theorem uris_indexUnit (hm : b.model = m) (ho : b.options = o) (h : b.tables.Traced m)
    {unit : Node .compilationUnit} (hrun : b.indexUnit unit = .ok b') :
    b'.tables.uris.uris = (b.tables.uris.uris ++ (uriPair (m.unitUris unit.unitElement) ++
      ((((unit.recordedUses m o).map (·.target)).removeAll
        b.tables.elements.elementIds).eraseDups.flatMap
          fun e => uriPair (m.homeUris e)))).eraseDups := by
  subst hm ho
  obtain ⟨key, uris, hkey, ht, rfl⟩ := indexUnit_eq_addUnit rfl h hrun
  have hadds := Recording.adds_contribute
    (r := { tables := { b.tables with uris }, unit := { key }, log := b.log }) ht b.options unit
  have hown := UriTable.uris_enterUnit h.uris.nodup hkey
  rw [← List.append_assoc, ← eraseDups_eraseDups_append, ← hown]
  exact hadds.uris

theorem uris_indexAll (hm : b.model = m) (ho : b.options = o) (h : b.tables.Traced m)
    {units : List (Node .compilationUnit)} (hrun : b.indexAll units = (b', none)) :
    b'.tables.uris.uris = (b.tables.uris.uris ++ broughtUris m b.tables.elements.elementIds
      (units.map (Tree.rootAndTargets m o))).eraseDups := by
  induction units generalizing b with
  | nil =>
    cases hrun
    simp [broughtUris, eraseDups_eq_self h.uris.nodup]
  | cons unit units ih =>
    obtain ⟨b₁, hstep, hran, hrest⟩ := exists_step_of_indexAll hm ho h hrun
    have hknown : ∀ e, e ∈ b₁.tables.elements.elementIds ↔
        e ∈ b.tables.elements.elementIds ++ (unit.recordedUses m o).map (·.target) := by
      intro e
      rw [hran.elements, List.mem_eraseDups, List.flatMap_singleton]
    rw [ih hran.model hran.options hran.traced hrest, uris_indexUnit hm ho h hstep,
      eraseDups_eraseDups_append, broughtUris_congr hknown, List.map_cons, Tree.rootAndTargets,
      broughtUris]
    simp only [List.append_assoc]

end PackageBuilder

namespace PackageIndex

/-- Some entry or some element points to the URI with this number. -/
def PointsTo (p : PackageIndex) (i : Nat) : Prop :=
  (∃ u ∈ p.units, u.libraryUri.toNat = i ∨ u.unitUri.toNat = i) ∨
    ∃ id ∈ p.libraryUris ++ p.unitUris, id.toNat = i

theorem Shows.pointsTo_of_root {m : Model} {o : Options} {units : List (Node .compilationUnit)}
    {p : PackageIndex} (h : p.Shows m o units) (hnodup : p.uris.Nodup)
    {unit : Node .compilationUnit} (hunit : unit ∈ units) {i : Nat} {uri : String}
    (hi : p.uris[i]? = some uri) (huri : uri ∈ uriPair (m.unitUris unit.unitElement)) :
    p.PointsTo i := by
  obtain ⟨u, hu, hshows⟩ := forall₂_mem h.entries hunit
  obtain ⟨pair, hpair, hlibrary, hown⟩ := hshows.uris
  simp only [hpair, uriPair, List.mem_cons, List.not_mem_nil, or_false] at huri
  rcases huri with rfl | rfl
  · exact .inl ⟨u, hu, .inl (toNat_eq_of_getElem? hnodup hi hlibrary)⟩
  · exact .inl ⟨u, hu, .inr (toNat_eq_of_getElem? hnodup hi hown)⟩

end PackageIndex

namespace FullRun

variable {m : Model} {o : Options} {units : List (Node .compilationUnit)}

theorem uris_eq (h : FullRun m o units) :
    (builderOf m o units).tables.uris.uris =
      (broughtUris m [] (units.map (Tree.rootAndTargets m o))).eraseDups :=
  PackageBuilder.uris_indexAll (b := { model := m, options := o }) rfl rfl
    (Tables.traced_empty m) h.finished

theorem pointsTo_of_element (h : FullRun m o units) {e : ElementId}
    (he : e ∈ mentioned m o units) {i : Nat} {uri : String}
    (hi : (builderOf m o units).tables.uris.uris[i]? = some uri)
    (huri : uri ∈ uriPair (m.homeUris e)) :
    ((builderOf m o units).index (units.map (Tree.recordedUses m o))).PointsTo i := by
  rw [← h.elements] at he
  obtain ⟨r, hr, rfl⟩ := List.mem_map.1 he
  obtain ⟨-, -, pair, -, -, hhome, hat⟩ := h.traced.records r hr
  obtain ⟨hlibrary, hunit⟩ := UriTable.pair?_eq_some_iff.1 (Tables.unitKey_of_home? hat).2
  have hsorted : r ∈ (builderOf m o units).tables.elements.sorted :=
    (sortByKey_perm _ _).mem_iff.2 hr
  have hnodup := h.traced.uris.nodup
  simp only [hhome, uriPair, List.mem_cons, List.not_mem_nil, or_false] at huri
  rcases huri with rfl | rfl
  · exact .inr ⟨_, List.mem_append_left _ (List.mem_map_of_mem hsorted),
      toNat_eq_of_getElem? hnodup hi hlibrary⟩
  · exact .inr ⟨_, List.mem_append_right _ (List.mem_map_of_mem hsorted),
      toNat_eq_of_getElem? hnodup hi hunit⟩

theorem lt_length_uris_iff (h : FullRun m o units) {i : Nat} :
    i < (builderOf m o units).tables.uris.uris.length ↔
      ((builderOf m o units).index (units.map (Tree.recordedUses m o))).PointsTo i := by
  constructor
  · intro hlt
    obtain ⟨uri, hi⟩ : ∃ uri, (builderOf m o units).tables.uris.uris[i]? = some uri :=
      ⟨_, List.getElem?_eq_getElem hlt⟩
    have hmem := List.mem_of_getElem? hi
    rw [h.uris_eq, List.mem_eraseDups] at hmem
    obtain ⟨item, hitem, hcases⟩ := mem_broughtUris hmem
    obtain ⟨unit, hunit, rfl⟩ := List.mem_map.1 hitem
    rcases hcases with hroot | ⟨e, he, huri⟩
    · exact h.shows.pointsTo_of_root h.traced.uris.nodup hunit hi hroot
    · obtain ⟨c, hc, hce⟩ := List.mem_map.1 he
      exact h.pointsTo_of_element (mem_mentioned.2 ⟨unit, hunit, c, hc, hce⟩) hi huri
  · rintro (⟨u, hu, hcases⟩ | ⟨id, hid, rfl⟩)
    · obtain ⟨unit, -, hshows⟩ := forall₂_mem h.shows.entries.flip hu
      obtain ⟨pair, -, hlibrary, hown⟩ := hshows.uris
      rcases hcases with rfl | rfl
      · exact (List.getElem?_eq_some_iff.1 hlibrary).1
      · exact (List.getElem?_eq_some_iff.1 hown).1
    · exact h.uriIds id hid

end FullRun

/-- The URIs of a finished index are those that the units and the recorded elements bring, each
once and in the order in which they come; and each is pointed to. -/
theorem uris_of_indexUnits {m : Model} {o : Options} {units : List (Node .compilationUnit)}
    {p : PackageIndex} (h : (indexUnits m o units).1 = .ok p) :
    p.uris.Nodup ∧
    (∃ recorded : List (List Candidate),
      (builderOf m o units).units.mapM (·.uses? (builderOf m o units).tables.elements) =
        some recorded ∧
      p.uris = (broughtUris m [] (List.zipWith
        (fun unit us => (unit.unitElement, us.map (·.target))) units recorded)).eraseDups) ∧
    ∀ i, i < p.uris.length ↔ p.PointsTo i := by
  have hrun : FullRun m o units := fullRun_of_roots (roots_of_indexUnits h)
  obtain rfl := Except.ok.inj (hrun.indexUnits_eq.symm.trans h)
  refine ⟨hrun.traced.uris.nodup, ⟨_, mapM_eq_some_iff.2 hrun.uses, ?_⟩,
    fun i => hrun.lt_length_uris_iff⟩
  rw [List.zipWith_map_right, List.zipWith_self]
  exact hrun.uris_eq

/-- The second unit brings only what is there: its own URIs came with the element that the first
unit uses before its own. -/
theorem uris_of_indexUnits_sample :
    (indexUnits Sample.model {} [Sample.unitA, Sample.unitB]).1 = .ok Sample.index ∧
      broughtUris Sample.model [] [(⟨1⟩, [⟨5⟩, ⟨2⟩]), (⟨4⟩, [⟨2⟩, ⟨2⟩])] =
        ["a", "a", "b", "b", "a", "a", "b", "b"] ∧
      Sample.index.uris =
        (broughtUris Sample.model [] [(⟨1⟩, [⟨5⟩, ⟨2⟩]), (⟨4⟩, [⟨2⟩, ⟨2⟩])]).eraseDups ∧
      Sample.index.PointsTo 1 := by
  obtain ⟨-, ⟨recorded, hrecorded, huris⟩, hpoints⟩ := uris_of_indexUnits Sample.indexUnits_eq
  have hsame : (builderOf Sample.model {} [Sample.unitA, Sample.unitB]).units.mapM
      (·.uses? (builderOf Sample.model {} [Sample.unitA, Sample.unitB]).tables.elements) =
        some [[⟨⟨5⟩, .isExtendedBy, ⟨16, 1⟩⟩, ⟨⟨2⟩, .isReferencedBy, ⟨18, 1⟩⟩],
          [⟨⟨2⟩, .isExtendedBy, ⟨16, 1⟩⟩, ⟨⟨2⟩, .isReferencedBy, ⟨18, 1⟩⟩]] := by decide +kernel
  obtain rfl := Option.some.inj (hrecorded.symm.trans hsame)
  exact ⟨Sample.indexUnits_eq, by decide +kernel, huris, (hpoints 1).1 (by decide)⟩

end UsageIndex
