import UsageIndex.Proofs.Interning

/-!
Where elements are at home. From an element the enclosing links lead out to a unit, or to a
library, which stands for the unit that defines it. A way that ends there passes no element
twice, so it is never too long for the limit under which it is searched; an element for which no
unit is found has no way to one. What keeps an element from having a home is one of a few faults
in the model.
-/

set_option autoImplicit false

namespace UsageIndex

namespace Model

/-- The enclosing links lead from the first element through those of the list to the unit. -/
inductive LeadsTo (m : Model) : ElementId → List ElementId → ElementId → Prop where
  | unit {e : ElementId} {element : Element} (he : m.get? e = some element)
      (hk : element.kind = .compilationUnit) : LeadsTo m e [e] e
  | library {e unit : ElementId} {element : Element} (he : m.get? e = some element)
      (hk : element.kind = .library) (hu : element.definingUnit = some unit) :
      LeadsTo m e [e] unit
  | inside {e outer unit : ElementId} {way : List ElementId} {element : Element}
      (he : m.get? e = some element) (hunit : element.kind ≠ .compilationUnit)
      (hlibrary : element.kind ≠ .library) (houter : element.enclosing = some outer)
      (h : LeadsTo m outer way unit) : LeadsTo m e (e :: way) unit

def BelongsTo (m : Model) (e unit : ElementId) : Prop := ∃ way, m.LeadsTo e way unit

namespace LeadsTo

variable {m : Model} {e unit : ElementId} {way : List ElementId}

theorem way_unique {unit' : ElementId} {way' : List ElementId} (h : m.LeadsTo e way unit)
    (h' : m.LeadsTo e way' unit') : way = way' := by
  induction h generalizing way' with
  | unit he hk => cases h' <;> grind
  | library he hk hu => cases h' <;> grind
  | inside he hunit hlibrary houter h ih =>
    cases h' with
    | unit he' hk' => grind
    | library he' hk' hu' => grind
    | inside he' hunit' hlibrary' houter' h' =>
      obtain rfl := Option.some.inj (he.symm.trans he')
      obtain rfl := Option.some.inj (houter.symm.trans houter')
      rw [ih h']

theorem of_mem (h : m.LeadsTo e way unit) {x : ElementId} (hx : x ∈ way) :
    ∃ rest, m.LeadsTo x rest unit ∧ rest.length ≤ way.length := by
  induction h with
  | unit he hk =>
    obtain rfl := List.mem_singleton.1 hx
    exact ⟨_, .unit he hk, Nat.le_refl _⟩
  | library he hk hu =>
    obtain rfl := List.mem_singleton.1 hx
    exact ⟨_, .library he hk hu, Nat.le_refl _⟩
  | inside he hunit hlibrary houter h ih =>
    rcases List.mem_cons.1 hx with rfl | hmem
    · exact ⟨_, .inside he hunit hlibrary houter h, Nat.le_refl _⟩
    · obtain ⟨rest, hrest, hle⟩ := ih hmem
      exact ⟨rest, hrest, by rw [List.length_cons]; omega⟩

theorem nodup (h : m.LeadsTo e way unit) : way.Nodup := by
  induction h with
  | unit he hk => exact List.nodup_singleton _
  | library he hk hu => exact List.nodup_singleton _
  | inside he hunit hlibrary houter h ih =>
    refine List.nodup_cons.2 ⟨?_, ih⟩
    -- a second visit would begin a shorter way from the same element
    intro hmem
    obtain ⟨rest, hrest, hle⟩ := h.of_mem hmem
    have hsame := hrest.way_unique (.inside he hunit hlibrary houter h)
    rw [hsame, List.length_cons] at hle
    omega

theorem get?_of_mem (h : m.LeadsTo e way unit) {x : ElementId} (hx : x ∈ way) :
    ∃ element, m.get? x = some element := by
  obtain ⟨rest, hrest, -⟩ := h.of_mem hx
  cases hrest with
  | unit he hk => exact ⟨_, he⟩
  | library he hk hu => exact ⟨_, he⟩
  | inside he hunit hlibrary houter h => exact ⟨_, he⟩

theorem length_le_size (h : m.LeadsTo e way unit) : way.length ≤ m.size := by
  refine length_le_of_nodup_of_lt h.nodup ?_
  intro x hx
  obtain ⟨element, hget⟩ := h.get?_of_mem hx
  exact lt_size_of_get? hget

theorem unitOfChain (h : m.LeadsTo e way unit) {limit : Nat} (hlimit : way.length ≤ limit) :
    Model.unitOfChain (m.chainFrom limit (some e)) = some unit := by
  induction h generalizing limit with
  | unit he hk =>
    obtain ⟨limit, rfl⟩ := Nat.exists_eq_add_of_le' hlimit
    simp [chainFrom, he, Model.unitOfChain, hk]
  | library he hk hu =>
    obtain ⟨limit, rfl⟩ := Nat.exists_eq_add_of_le' hlimit
    simp [chainFrom, he, Model.unitOfChain, hk, hu]
  | @inside e outer unit way element he hunit hlibrary houter h ih =>
    rw [List.length_cons] at hlimit
    obtain ⟨limit, rfl⟩ := Nat.exists_eq_add_of_le' (Nat.le_of_add_left_le hlimit)
    simp only [chainFrom, he, Model.unitOfChain, houter]
    exact ih (by omega)

end LeadsTo

theorem belongsTo_of_unitOfChain {m : Model} {limit : Nat} {e unit : ElementId}
    (h : unitOfChain (m.chainFrom limit (some e)) = some unit) : m.BelongsTo e unit := by
  induction limit generalizing e with
  | zero => cases h
  | succ limit ih =>
    cases he : m.get? e with
    | none => simp [chainFrom, he, unitOfChain] at h
    | some element =>
      simp only [chainFrom, he, unitOfChain] at h
      split at h
      · rename_i hk
        obtain rfl := Option.some.inj h
        exact ⟨_, .unit he hk⟩
      · rename_i hk
        exact ⟨_, .library he hk h⟩
      · rename_i hunit hlibrary
        cases houter : element.enclosing with
        | none =>
          rw [houter] at h
          cases limit <;> cases h
        | some outer =>
          rw [houter] at h
          obtain ⟨way, hway⟩ := ih h
          exact ⟨_, .inside he hunit hlibrary houter hway⟩

/-- The limit on the chain hides no unit. -/
theorem unitOfChain_eq_some_iff {m : Model} {e unit : ElementId} :
    unitOfChain (m.enclosingChain e) = some unit ↔ m.BelongsTo e unit :=
  ⟨belongsTo_of_unitOfChain, fun ⟨_, h⟩ => h.unitOfChain h.length_le_size⟩

theorem BelongsTo.get? {m : Model} {e unit : ElementId} (h : m.BelongsTo e unit) :
    ∃ element, m.get? e = some element := by
  obtain ⟨way, hway⟩ := h
  cases hway with
  | unit he hk => exact ⟨_, he⟩
  | library he hk hu => exact ⟨_, he⟩
  | inside he hunit hlibrary houter h => exact ⟨_, he⟩

theorem enclosingUnit_eq_ok_iff {m : Model} {e unit : ElementId} :
    m.enclosingUnit e = .ok unit ↔ m.BelongsTo e unit := by
  rw [← unitOfChain_eq_some_iff, enclosingUnit]
  cases he : m.get? e with
  | none =>
    have hnone : unitOfChain (m.enclosingChain e) ≠ some unit := by
      intro h
      obtain ⟨element, hget⟩ := (unitOfChain_eq_some_iff.1 h).get?
      rw [he] at hget
      cases hget
    simp [hnone]
  | some element => cases unitOfChain (m.enclosingChain e) <;> simp

theorem enclosingUnit_eq_error_iff {m : Model} {e : ElementId} {fault : Fault} :
    m.enclosingUnit e = .error fault ↔
      (m.get? e = none ∧ fault = .unknownElement e) ∨
      ∃ element, m.get? e = some element ∧ (∀ unit, ¬ m.BelongsTo e unit) ∧
        fault = .unlinkedElement e element.name := by
  simp only [← unitOfChain_eq_some_iff, enclosingUnit]
  cases m.get? e with
  | none => simp [eq_comm]
  | some element => cases unitOfChain (m.enclosingChain e) <;> simp [eq_comm]

inductive LacksSource (m : Model) (id : ElementId) : Fault → Prop where
  | unknown (h : m.get? id = none) : LacksSource m id (.unknownElement id)
  | missing {element : Element} (h : m.get? id = some element)
      (huri : element.sourceUri = none) : LacksSource m id (.missingSourceUri id)

/-- The fault in the model that keeps an element from having a home. -/
inductive LacksHome (m : Model) (e : ElementId) : Fault → Prop where
  | unknown (h : m.get? e = none) : LacksHome m e (.unknownElement e)
  | unlinked {element : Element} (h : m.get? e = some element)
      (hunit : ∀ unit, ¬ m.BelongsTo e unit) :
      LacksHome m e (.unlinkedElement e element.name)
  | unit {unit : ElementId} {fault : Fault} (hunit : m.BelongsTo e unit)
      (h : m.LacksSource unit fault) : LacksHome m e fault
  /-- The unit has a source, but what encloses it has none. -/
  | library {unit library : ElementId} {element : Element} {uri : String} {fault : Fault}
      (hunit : m.BelongsTo e unit) (hget : m.get? unit = some element)
      (huri : element.sourceUri = some uri) (hlibrary : element.enclosing = some library)
      (h : m.LacksSource library fault) : LacksHome m e fault

theorem sourceUri_eq_error_iff {m : Model} {id : ElementId} {fault : Fault} :
    m.sourceUri id = .error fault ↔ m.LacksSource id fault := by
  unfold sourceUri
  constructor
  · intro h
    cases hget : m.get? id with
    | none =>
      simp only [hget, Except.error.injEq] at h
      exact h ▸ .unknown hget
    | some element =>
      cases huri : element.sourceUri with
      | none =>
        simp only [hget, huri, Except.error.injEq] at h
        exact h ▸ .missing hget huri
      | some uri => simp [hget, huri] at h
  · rintro (hget | ⟨hget, huri⟩)
    · simp [hget]
    · simp [hget, huri]

theorem unitUris_eq_error_iff {m : Model} {unit : ElementId} {fault : Fault} :
    m.unitUris unit = .error fault ↔
      m.LacksSource unit fault ∨
      ∃ element uri library, m.get? unit = some element ∧ element.sourceUri = some uri ∧
        element.enclosing = some library ∧ m.LacksSource library fault := by
  simp only [← sourceUri_eq_error_iff, unitUris]
  cases hu : m.sourceUri unit with
  | error other =>
    have hnone : ∀ element uri, m.get? unit = some element → element.sourceUri ≠ some uri := by
      intro element uri hget huri
      rw [sourceUri_eq_ok_iff.2 ⟨element, hget, huri⟩] at hu
      cases hu
    simp only [bind, Except.bind, Except.error.injEq]
    constructor
    · exact .inl
    · rintro (h | ⟨element, uri, library, hget, huri, -⟩)
      · exact h
      · exact absurd huri (hnone element uri hget)
  | ok uri =>
    obtain ⟨element, hget, huri⟩ := sourceUri_eq_ok_iff.1 hu
    simp only [hget, Option.bind_some, bind, Except.bind]
    cases hl : element.enclosing with
    | none => simp [pure, Except.pure, hl]
    | some library => cases hs : m.sourceUri library <;> simp [pure, Except.pure, hl, hs, huri]

theorem homeUris_eq_ok_iff {m : Model} {e : ElementId} {pair : String × String} :
    m.homeUris e = .ok pair ↔ ∃ unit, m.BelongsTo e unit ∧ m.unitUris unit = .ok pair := by
  simp only [← enclosingUnit_eq_ok_iff, homeUris]
  cases m.enclosingUnit e <;> simp [bind, Except.bind]

/-- An element has no home just for one of the faults, and only one applies to it. -/
theorem homeUris_eq_error_iff {m : Model} {e : ElementId} {fault : Fault} :
    m.homeUris e = .error fault ↔ m.LacksHome e fault := by
  have hsplit : m.homeUris e = .error fault ↔ m.enclosingUnit e = .error fault ∨
      ∃ unit, m.BelongsTo e unit ∧ m.unitUris unit = .error fault := by
    simp only [← enclosingUnit_eq_ok_iff, homeUris]
    cases m.enclosingUnit e <;> simp [bind, Except.bind]
  rw [hsplit, enclosingUnit_eq_error_iff]
  constructor
  · rintro ((⟨hget, rfl⟩ | ⟨element, hget, hunit, rfl⟩) | ⟨unit, hunit, hfault⟩)
    · exact .unknown hget
    · exact .unlinked hget hunit
    · rcases unitUris_eq_error_iff.1 hfault with h | ⟨element, uri, library, hget, huri, hl, h⟩
      · exact .unit hunit h
      · exact .library hunit hget huri hl h
  · rintro (hget | ⟨hget, hunit⟩ | ⟨hunit, h⟩ | ⟨hunit, hget, huri, hl, h⟩)
    · exact .inl (.inl ⟨hget, rfl⟩)
    · exact .inl (.inr ⟨_, hget, hunit, rfl⟩)
    · exact .inr ⟨_, hunit, unitUris_eq_error_iff.2 (.inl h)⟩
    · exact .inr ⟨_, hunit, unitUris_eq_error_iff.2 (.inr ⟨_, _, _, hget, huri, hl, h⟩)⟩

end Model

end UsageIndex
