import UsageIndex.Proofs.Element.Chains
import UsageIndex.Proofs.Element.Homes

/-!
Models that are built up from libraries, parts and what is inside them. An element is only ever
put inside one that is there already, so the enclosing links lead to earlier and earlier elements
until they come to a library; and on the way out there is always a unit, or a library that a unit
defines.
-/

set_option autoImplicit false

namespace UsageIndex

/-- The element has no links but those to what encloses it and to the unit that defines it. -/
structure Element.Plain (element : Element) : Prop where
  supertype : element.supertype = none
  redirectedConstructor : element.redirectedConstructor = none
  field : element.field = none
  library : element.library = none

namespace Model

/-- The model comes from the empty one by adding libraries, parts of these libraries, and other
elements inside those that are there. The lists hold the libraries and the units that this gave. -/
inductive Built : Model → (libraries units : List ElementId) → Prop where
  | empty : Built .empty [] []
  | library {m : Model} {libraries units : List ElementId} (h : Built m libraries units)
      (uri : String) :
      Built (m.addLibrary uri).2 (libraries ++ [(m.addLibrary uri).1.1])
        (units ++ [(m.addLibrary uri).1.2])
  | part {m : Model} {libraries units : List ElementId} {library : ElementId}
      (h : Built m libraries units) (hlibrary : library ∈ libraries) (uri : String) :
      Built (m.addPart library uri).2 libraries (units ++ [(m.addPart library uri).1])
  | child {m : Model} {libraries units : List ElementId} {outer : ElementId} {kind : ElementKind}
      (h : Built m libraries units) (houter : ∃ element, m.get? outer = some element)
      (hlibrary : kind ≠ .library) (hunit : kind ≠ .compilationUnit) (name : String)
      (nameOffset : UInt32) : Built (m.addChild outer kind name nameOffset).2 libraries units

inductive Placed (libraries units : List ElementId) (e : ElementId) (element : Element) :
    Prop where
  | library {unit : ElementId} {uri : String} (he : e ∈ libraries) (hk : element.kind = .library)
      (hnone : element.enclosing = none) (huri : element.sourceUri = some uri)
      (hdefining : element.definingUnit = some unit) (hunit : unit ∈ units)
  | unit {library : ElementId} {uri : String} (he : e ∈ units)
      (hk : element.kind = .compilationUnit) (houter : element.enclosing = some library)
      (hlibrary : library ∈ libraries) (hearlier : library.index.toNat < e.index.toNat)
      (huri : element.sourceUri = some uri)
  | inside {outer : ElementId} (hunit : element.kind ≠ .compilationUnit)
      (hlibrary : element.kind ≠ .library) (houter : element.enclosing = some outer)
      (hearlier : outer.index.toNat < e.index.toNat)

structure Linked (m : Model) (libraries units : List ElementId) : Prop where
  placed : ∀ e element, m.get? e = some element → Placed libraries units e element
  plain : ∀ element ∈ m.elements, element.Plain
  libraries_known : ∀ library ∈ libraries,
    ∃ element, m.get? library = some element ∧ element.kind = .library
  units_known : ∀ unit ∈ units,
    ∃ element, m.get? unit = some element ∧ element.kind = .compilationUnit

variable {m : Model} {libraries units : List ElementId}

theorem Placed.mono {libraries' units' : List ElementId} {e : ElementId} {element : Element}
    (h : Placed libraries units e element) (hl : libraries ⊆ libraries') (hu : units ⊆ units') :
    Placed libraries' units' e element := by
  cases h with
  | library he hk hnone huri hdefining hunit =>
    exact .library (hl he) hk hnone huri hdefining (hu hunit)
  | unit he hk houter hlibrary hearlier huri =>
    exact .unit (hu he) hk houter (hl hlibrary) hearlier huri
  | inside hunit hlibrary houter hearlier => exact .inside hunit hlibrary houter hearlier

theorem get?_append_of_some {e : ElementId} {element : Element} (h : m.get? e = some element)
    (new : List Element) : (⟨m.elements ++ new⟩ : Model).get? e = some element :=
  getElem?_mono (List.prefix_append _ _) h

theorem get?_append_new {e : ElementId} {i : Nat} {element : Element} {new : List Element}
    (he : e.index.toNat = m.size + i) (hi : new[i]? = some element) :
    (⟨m.elements ++ new⟩ : Model).get? e = some element := by
  have hle : m.elements.length ≤ e.index.toNat := he ▸ Nat.le_add_right _ _
  rw [get?, List.getElem?_append_right hle, he, size, Nat.add_sub_cancel_left, hi]

theorem get?_append_cases {e : ElementId} {element : Element} {new : List Element}
    (h : (⟨m.elements ++ new⟩ : Model).get? e = some element) :
    m.get? e = some element ∨ ∃ i, e.index.toNat = m.size + i ∧ new[i]? = some element := by
  by_cases hlt : e.index.toNat < m.elements.length
  · rw [get?, List.getElem?_append_left hlt] at h
    exact .inl h
  · rw [get?, List.getElem?_append_right (Nat.le_of_not_lt hlt)] at h
    exact .inr ⟨_, by rw [size]; omega, h⟩

theorem Linked.append (h : m.Linked libraries units) (new : List Element)
    (newLibraries newUnits : List ElementId)
    (hplaced : ∀ e i element, e.index.toNat = m.size + i → new[i]? = some element →
      Placed (libraries ++ newLibraries) (units ++ newUnits) e element)
    (hplain : ∀ element ∈ new, element.Plain)
    (hlibraries : ∀ library ∈ newLibraries, ∃ i element, library.index.toNat = m.size + i ∧
      new[i]? = some element ∧ element.kind = .library)
    (hunits : ∀ unit ∈ newUnits, ∃ i element, unit.index.toNat = m.size + i ∧
      new[i]? = some element ∧ element.kind = .compilationUnit) :
    (⟨m.elements ++ new⟩ : Model).Linked (libraries ++ newLibraries) (units ++ newUnits) where
  placed := by
    intro e element he
    rcases get?_append_cases he with hold | ⟨i, hindex, hi⟩
    · exact (h.placed e element hold).mono (List.subset_append_left _ _)
        (List.subset_append_left _ _)
    · exact hplaced e i element hindex hi
  plain := by
    intro element helement
    rcases List.mem_append.1 helement with hold | hnew
    · exact h.plain element hold
    · exact hplain element hnew
  libraries_known := by
    intro library hlibrary
    rcases List.mem_append.1 hlibrary with hold | hnew
    · obtain ⟨element, he, hk⟩ := h.libraries_known library hold
      exact ⟨element, get?_append_of_some he new, hk⟩
    · obtain ⟨i, element, hindex, hi, hk⟩ := hlibraries library hnew
      exact ⟨element, get?_append_new hindex hi, hk⟩
  units_known := by
    intro unit hunit
    rcases List.mem_append.1 hunit with hold | hnew
    · obtain ⟨element, he, hk⟩ := h.units_known unit hold
      exact ⟨element, get?_append_of_some he new, hk⟩
    · obtain ⟨i, element, hindex, hi, hk⟩ := hunits unit hnew
      exact ⟨element, get?_append_new hindex hi, hk⟩

theorem linked_empty : Model.empty.Linked [] [] where
  placed := by simp [Model.empty, get?]
  plain := by simp [Model.empty]
  libraries_known := by simp
  units_known := by simp

theorem addLibrary_eq (hm : m.size < UInt32.size) (uri : String) :
    (m.addLibrary uri).2 = ⟨m.elements ++ [
      { kind := .library, name := "", nameOffset := 0, sourceUri := some uri,
        definingUnit := some (m.addLibrary uri).1.2 },
      unitElement (m.addLibrary uri).1.1 uri]⟩ := by
  have hindex : (UInt32.ofNat m.size).toNat = m.elements.length := toNat_ofNat_of_lt hm
  simp only [addLibrary, add, replace, hindex, List.append_assoc, List.singleton_append,
    List.set_append_right _ _ (Nat.le_refl _), Nat.sub_self, List.set_cons_zero]

theorem size_addLibrary (m : Model) (uri : String) : (m.addLibrary uri).2.size = m.size + 2 := by
  simp [addLibrary, add, replace, size]

theorem size_add (m : Model) (element : Element) : (m.add element).2.size = m.size + 1 := by
  simp [add, size]

theorem eq_of_toNat {a b : ElementId} (h : a.index.toNat = b.index.toNat) : a = b := by
  cases a
  cases b
  exact congrArg ElementId.mk (UInt32.toNat_inj.1 h)

theorem Linked.addLibrary (h : m.Linked libraries units) (uri : String)
    (hm : m.size + 1 < UInt32.size) :
    (m.addLibrary uri).2.Linked (libraries ++ [(m.addLibrary uri).1.1])
      (units ++ [(m.addLibrary uri).1.2]) := by
  have hlibrary : (m.addLibrary uri).1.1.index.toNat = m.size :=
    toNat_ofNat_of_lt (Nat.lt_of_succ_lt hm)
  have hunit : (m.addLibrary uri).1.2.index.toNat = m.size + 1 := by
    change (UInt32.ofNat (m.add _).2.size).toNat = m.size + 1
    rw [size_add]
    exact toNat_ofNat_of_lt hm
  rw [addLibrary_eq (Nat.lt_of_succ_lt hm)]
  refine h.append _ _ _ ?_ ?_ ?_ ?_
  · intro e i element he hi
    match i, hi with
    | 0, hi =>
      obtain rfl := Option.some.inj hi
      obtain rfl := eq_of_toNat (he.trans hlibrary.symm)
      exact .library (by simp) rfl rfl rfl rfl (by simp)
    | 1, hi =>
      obtain rfl := Option.some.inj hi
      obtain rfl := eq_of_toNat (he.trans hunit.symm)
      exact .unit (by simp) rfl rfl (by simp) (by omega) rfl
  · intro element helement
    simp only [List.mem_cons, List.not_mem_nil, or_false] at helement
    rcases helement with rfl | rfl
    · exact ⟨rfl, rfl, rfl, rfl⟩
    · exact ⟨rfl, rfl, rfl, rfl⟩
  · intro library hmem
    obtain rfl := List.mem_singleton.1 hmem
    exact ⟨0, _, hlibrary, rfl, rfl⟩
  · intro unit hmem
    obtain rfl := List.mem_singleton.1 hmem
    exact ⟨1, _, hunit, rfl, rfl⟩

theorem Linked.addPart (h : m.Linked libraries units) {library : ElementId}
    (hlibrary : library ∈ libraries) (uri : String) (hm : m.size < UInt32.size) :
    (m.addPart library uri).2.Linked libraries (units ++ [(m.addPart library uri).1]) := by
  have hunit : (m.addPart library uri).1.index.toNat = m.size := toNat_ofNat_of_lt hm
  obtain ⟨_, hget, -⟩ := h.libraries_known library hlibrary
  have hearlier := lt_size_of_get? hget
  have hlinked := h.append [unitElement library uri] [] [(m.addPart library uri).1]
    ?_ ?_ (by simp) ?_
  · rwa [List.append_nil] at hlinked
  · intro e i element he hi
    match i, hi with
    | 0, hi =>
      obtain rfl := Option.some.inj hi
      obtain rfl := eq_of_toNat (he.trans hunit.symm)
      exact .unit (by simp) rfl rfl (by simpa using hlibrary) (by omega) rfl
  · intro element helement
    obtain rfl := List.mem_singleton.1 helement
    exact ⟨rfl, rfl, rfl, rfl⟩
  · intro unit hmem
    obtain rfl := List.mem_singleton.1 hmem
    exact ⟨0, _, hunit, rfl, rfl⟩

theorem Linked.addChild (h : m.Linked libraries units) {outer : ElementId} {kind : ElementKind}
    (houter : ∃ element, m.get? outer = some element) (hlibrary : kind ≠ .library)
    (hunit : kind ≠ .compilationUnit) (name : String) (nameOffset : UInt32) :
    (m.addChild outer kind name nameOffset).2.Linked libraries units := by
  obtain ⟨_, hget⟩ := houter
  have hearlier := lt_size_of_get? hget
  have hlinked := h.append [{ kind, name, nameOffset, enclosing := some outer }] [] []
    ?_ ?_ (by simp) (by simp)
  · rwa [List.append_nil, List.append_nil] at hlinked
  · intro e i element he hi
    match i, hi with
    | 0, hi =>
      obtain rfl := Option.some.inj hi
      exact .inside hunit hlibrary rfl (by omega)
  · intro element helement
    obtain rfl := List.mem_singleton.1 helement
    exact ⟨rfl, rfl, rfl, rfl⟩

/-- As long as there are numbers for all elements, building keeps a model linked. -/
theorem Built.linked (h : m.Built libraries units) (hm : m.size ≤ UInt32.size) :
    m.Linked libraries units := by
  induction h with
  | empty => exact linked_empty
  | library _ uri ih =>
    rw [size_addLibrary] at hm
    exact (ih (by omega)).addLibrary uri (by omega)
  | part _ hlibrary uri ih =>
    rw [addPart, size_add] at hm
    exact (ih (by omega)).addPart hlibrary uri (by omega)
  | child _ houter hlibrary hunit name nameOffset ih =>
    rw [addChild, size_add] at hm
    exact (ih (by omega)).addChild houter hlibrary hunit name nameOffset

namespace Linked

variable {e : ElementId} {element : Element}

theorem known_of_earlier {outer : ElementId} (he : m.get? e = some element)
    (hearlier : outer.index.toNat < e.index.toNat) : ∃ other, m.get? outer = some other :=
  ⟨_, List.getElem?_eq_getElem (hearlier.trans (lt_size_of_get? he))⟩

theorem earlier_of_links (h : m.Linked libraries units) {a b : ElementId} (hab : m.Links a b) :
    b.index.toNat < a.index.toNat := by
  obtain ⟨element, he, houter⟩ := Option.bind_eq_some_iff.1 hab
  cases h.placed a element he with
  | library _ _ hnone _ _ _ =>
    rw [hnone] at houter
    cases houter
  | unit _ _ houter' _ hearlier _ =>
    obtain rfl := Option.some.inj (houter.symm.trans houter')
    exact hearlier
  | inside _ _ houter' hearlier =>
    obtain rfl := Option.some.inj (houter.symm.trans houter')
    exact hearlier

theorem no_circle (h : m.Linked libraries units) (x : ElementId) :
    ¬ Relation.TransGen m.Links x x := by
  have hearlier : ∀ {a b : ElementId}, Relation.TransGen m.Links a b →
      b.index.toNat < a.index.toNat := by
    intro a b hab
    induction hab with
    | single hab => exact h.earlier_of_links hab
    | tail _ hbc ih => exact (h.earlier_of_links hbc).trans ih
  exact fun hround => Nat.lt_irrefl _ (hearlier hround)

theorem exists_library (h : m.Linked libraries units) (he : m.get? e = some element) :
    ∃ k library libraryElement, m.outward k e = some (library, libraryElement) ∧
      library ∈ libraries ∧ libraryElement.kind = .library ∧ libraryElement.enclosing = none := by
  induction hn : e.index.toNat using Nat.strongRecOn generalizing e element with
  | ind n ih =>
    have hout : ∀ outer, element.enclosing = some outer → outer.index.toNat < e.index.toNat →
        ∃ k library libraryElement, m.outward k e = some (library, libraryElement) ∧
          library ∈ libraries ∧ libraryElement.kind = .library ∧
          libraryElement.enclosing = none := by
      intro outer houter hearlier
      obtain ⟨other, hother⟩ := known_of_earlier he hearlier
      obtain ⟨k, library, libraryElement, hk, hrest⟩ := ih _ (hn ▸ hearlier) hother rfl
      have hlinks : m.Links e outer := by rw [Links, he, Option.bind_some, houter]
      exact ⟨k + 1, library, libraryElement, (hlinks.outward k).trans hk, hrest⟩
    cases h.placed e element he with
    | library hmem hk hnone _ _ _ =>
      exact ⟨0, e, element, by rw [outward, he, Option.map_some], hmem, hk, hnone⟩
    | unit _ _ houter _ hearlier _ => exact hout _ houter hearlier
    | inside _ _ houter hearlier => exact hout _ houter hearlier

theorem exists_unit (h : m.Linked libraries units) (he : m.get? e = some element) :
    ∃ unit ∈ units, m.BelongsTo e unit := by
  induction hn : e.index.toNat using Nat.strongRecOn generalizing e element with
  | ind n ih =>
    cases h.placed e element he with
    | library _ hk _ _ hdefining hunit => exact ⟨_, hunit, _, .library he hk hdefining⟩
    | unit hmem hk _ _ _ _ => exact ⟨e, hmem, _, .unit he hk⟩
    | inside hunit hlibrary houter hearlier =>
      obtain ⟨other, hother⟩ := known_of_earlier he hearlier
      obtain ⟨unit, hmem, way, hway⟩ := ih _ (hn ▸ hearlier) hother rfl
      exact ⟨unit, hmem, _, .inside he hunit hlibrary houter hway⟩

theorem exists_sourceUri (h : m.Linked libraries units) {library : ElementId}
    (hlibrary : library ∈ libraries) : ∃ uri, m.sourceUri library = .ok uri := by
  obtain ⟨element, hget, hkind⟩ := h.libraries_known library hlibrary
  cases h.placed library element hget with
  | library _ _ _ huri _ _ => exact ⟨_, sourceUri_eq_ok_iff.2 ⟨element, hget, huri⟩⟩
  | unit _ hk _ _ _ _ =>
    rw [hkind] at hk
    cases hk
  | inside _ hk _ _ => exact absurd hkind hk

theorem exists_unitUris (h : m.Linked libraries units) {unit : ElementId} (hunit : unit ∈ units) :
    ∃ pair, m.unitUris unit = .ok pair := by
  obtain ⟨element, hget, hkind⟩ := h.units_known unit hunit
  cases h.placed unit element hget with
  | library _ hk _ _ _ _ =>
    rw [hkind] at hk
    cases hk
  | @unit library uri _ _ houter hlibrary _ huri =>
    obtain ⟨libraryUri, hlibraryUri⟩ := h.exists_sourceUri hlibrary
    refine ⟨(libraryUri, uri), ?_⟩
    have hown : m.sourceUri unit = .ok uri := sourceUri_eq_ok_iff.2 ⟨element, hget, huri⟩
    have hlinks : (m.get? unit).bind Element.enclosing = some library := by
      rw [hget, Option.bind_some, houter]
    simp only [unitUris, hown, hlinks, hlibraryUri, bind, Except.bind]
    rfl
  | inside hk _ _ _ => exact absurd hkind hk

theorem exists_homeUris (h : m.Linked libraries units) (he : m.get? e = some element) :
    ∃ pair, m.homeUris e = .ok pair := by
  obtain ⟨unit, hunit, hbelongs⟩ := h.exists_unit he
  obtain ⟨pair, hpair⟩ := h.exists_unitUris hunit
  exact ⟨pair, homeUris_eq_ok_iff.2 ⟨unit, hbelongs, hpair⟩⟩

end Linked

theorem getLast?_enclosingChain {e : ElementId} {k : Nat} {p : ElementId × Element}
    (h : m.outward k e = some p) (hnone : p.2.enclosing = none) :
    (m.enclosingChain e).getLast? = some p := by
  obtain ⟨j, hj, hp⟩ := exists_outward_lt h
  have hget := (leadsOut_of_outward hp).2
  have hlast : m.outward (j + 1) e = none := by
    rw [outward_add, hp, Option.bind_some, outward, hget, Option.bind_some, hnone]
    rfl
  have hat : (m.enclosingChain e)[j]? = some p := by
    rw [enclosingChain, getElem?_chainFrom, if_pos hj, hp]
  have hbehind : (m.enclosingChain e)[j + 1]? = none := by
    rw [enclosingChain, getElem?_chainFrom, hlast, ite_self]
  have hlength : (m.enclosingChain e).length = j + 1 :=
    Nat.le_antisymm (List.getElem?_eq_none_iff.1 hbehind) (List.getElem?_eq_some_iff.1 hat).1
  rw [List.getLast?_eq_getElem?, hlength, Nat.add_sub_cancel, hat]

end Model

end UsageIndex
