import Mathlib.Data.Fintype.Card
import Mathlib.Data.Set.Finite.Basic
import Mathlib.Logic.Relation
import Mathlib.Order.WellFounded
import UsageIndex.Proofs.Element.Homes

/-!
How the search for an element's unit ends. The enclosing links may lead to a unit, or to a
library that a unit defines; else they end, lead out of the model, run into a circle or come to
a library that no unit defines, and the element belongs nowhere. No limit enters into any of
this, and what the limited search finds is the same.
-/

set_option autoImplicit false

namespace UsageIndex

/-- Among finitely many items, following a relation comes to an end or runs into a circle. -/
theorem exists_end_or_circle {α : Type} [Finite α] (R : α → α → Prop) (a : α) :
    ∃ x, Relation.ReflTransGen R a x ∧ ((∀ y, ¬ R x y) ∨ Relation.TransGen R x x) := by
  by_cases hcircle : ∃ x, Relation.ReflTransGen R a x ∧ Relation.TransGen R x x
  · obtain ⟨x, hx, h⟩ := hcircle
    exact ⟨x, hx, .inr h⟩
  · -- without a circle, going on is well-founded on what can be reached, so something is last
    have hwf : WellFounded fun y x => Relation.ReflTransGen R a x ∧ Relation.TransGen R x y := by
      have htrans : IsTrans α fun y x => Relation.ReflTransGen R a x ∧ Relation.TransGen R x y :=
        ⟨fun _ _ _ hzy hyx => ⟨hyx.1, hyx.2.trans hzy.2⟩⟩
      have hirrefl : Std.Irrefl fun y x => Relation.ReflTransGen R a x ∧ Relation.TransGen R x y :=
        ⟨fun x h => hcircle ⟨x, h⟩⟩
      exact Finite.wellFounded_of_trans_of_irrefl _
    obtain ⟨x, hx, hlast⟩ := hwf.has_min { x | Relation.ReflTransGen R a x } ⟨a, .refl⟩
    exact ⟨x, hx, .inl fun y hxy => hlast y (hx.tail hxy) ⟨hx, .single hxy⟩⟩

instance : Finite ElementId :=
  Finite.of_injective (fun e => e.index.toFin) fun a b h => by
    cases a
    cases b
    simpa [UInt32.toFin_inj] using h

namespace Model

/-- The first element is neither a unit nor a library, and the second is the one around it. -/
def Passes (m : Model) (a b : ElementId) : Prop :=
  ∃ element, m.get? a = some element ∧ element.kind ≠ .compilationUnit ∧
    element.kind ≠ .library ∧ element.enclosing = some b

/-- The ways outward that lead to no unit. -/
inductive Strays (m : Model) (e : ElementId) : Prop where
  | ends {last : ElementId} {element : Element} (way : Relation.ReflTransGen m.Passes e last)
      (he : m.get? last = some element) (hunit : element.kind ≠ .compilationUnit)
      (hlibrary : element.kind ≠ .library) (hnone : element.enclosing = none)
  | leavesModel {outer : ElementId} (way : Relation.TransGen m.Passes e outer)
      (hnone : m.get? outer = none)
  | circles {x : ElementId} (way : Relation.ReflTransGen m.Passes e x)
      (round : Relation.TransGen m.Passes x x)
  | undefinedLibrary {library : ElementId} {element : Element}
      (way : Relation.ReflTransGen m.Passes e library) (he : m.get? library = some element)
      (hk : element.kind = .library) (hnone : element.definingUnit = none)

variable {m : Model} {e unit : ElementId}

theorem Passes.get? {a b : ElementId} (h : m.Passes a b) : ∃ element, m.get? a = some element := by
  obtain ⟨element, he, -⟩ := h
  exact ⟨element, he⟩

theorem Passes.of_get? {a b : ElementId} {element : Element} (h : m.Passes a b)
    (he : m.get? a = some element) :
    element.kind ≠ .compilationUnit ∧ element.kind ≠ .library ∧ element.enclosing = some b := by
  obtain ⟨element', he', hrest⟩ := h
  obtain rfl := Option.some.inj (he.symm.trans he')
  exact hrest

theorem Passes.belongsTo_iff {a b : ElementId} (h : m.Passes a b) :
    m.BelongsTo a unit ↔ m.BelongsTo b unit := by
  constructor
  · rintro ⟨way, hway⟩
    cases hway with
    | unit he hk => exact absurd hk (h.of_get? he).1
    | library he hk hu => exact absurd hk (h.of_get? he).2.1
    | inside he _ _ houter hrest =>
      obtain rfl := Option.some.inj (houter.symm.trans (h.of_get? he).2.2)
      exact ⟨_, hrest⟩
  · rintro ⟨way, hway⟩
    obtain ⟨element, he⟩ := h.get?
    obtain ⟨hunit, hlibrary, houter⟩ := h.of_get? he
    exact ⟨_, .inside he hunit hlibrary houter hway⟩

theorem belongsTo_iff_of_way {a b : ElementId} (h : Relation.ReflTransGen m.Passes a b) :
    m.BelongsTo a unit ↔ m.BelongsTo b unit := by
  induction h with
  | refl => exact Iff.rfl
  | tail _ hstep ih => exact ih.trans hstep.belongsTo_iff

theorem LeadsTo.not_circle {way : List ElementId} (h : m.LeadsTo e way unit) :
    ¬ Relation.TransGen m.Passes e e := by
  induction h with
  | unit he hk =>
    intro hround
    obtain ⟨_, hstep, -⟩ := Relation.TransGen.head'_iff.1 hround
    exact (hstep.of_get? he).1 hk
  | library he hk hu =>
    intro hround
    obtain ⟨_, hstep, -⟩ := Relation.TransGen.head'_iff.1 hround
    exact (hstep.of_get? he).2.1 hk
  | inside he hunit hlibrary houter h ih =>
    intro hround
    obtain ⟨outer, hstep, hback⟩ := Relation.TransGen.head'_iff.1 hround
    obtain rfl := Option.some.inj (houter.symm.trans (hstep.of_get? he).2.2)
    exact ih (Relation.TransGen.tail' hback hstep)

theorem get?_of_way {a b : ElementId} (h : Relation.ReflTransGen m.Passes a b)
    (hb : ∃ element, m.get? b = some element) : ∃ element, m.get? a = some element := by
  rcases h.cases_head with rfl | ⟨c, hstep, -⟩
  · exact hb
  · exact hstep.get?

theorem Strays.get? (h : m.Strays e) : ∃ element, m.get? e = some element := by
  cases h with
  | ends way he hunit hlibrary hnone => exact get?_of_way way ⟨_, he⟩
  | leavesModel way hnone =>
    obtain ⟨_, hstep, -⟩ := Relation.TransGen.head'_iff.1 way
    exact hstep.get?
  | circles way round =>
    obtain ⟨_, hstep, -⟩ := Relation.TransGen.head'_iff.1 round
    exact get?_of_way way hstep.get?
  | undefinedLibrary way he hk hnone => exact get?_of_way way ⟨_, he⟩

theorem Strays.not_belongsTo (h : m.Strays e) : ¬ m.BelongsTo e unit := by
  cases h with
  | ends way he hunit hlibrary hnone =>
    rw [belongsTo_iff_of_way way]
    rintro ⟨_, hway⟩
    cases hway <;> grind
  | leavesModel way hnone =>
    rw [belongsTo_iff_of_way way.to_reflTransGen]
    intro hbelongs
    obtain ⟨element, he⟩ := hbelongs.get?
    rw [hnone] at he
    cases he
  | circles way round =>
    rw [belongsTo_iff_of_way way]
    rintro ⟨_, hway⟩
    exact hway.not_circle round
  | undefinedLibrary way he hk hnone =>
    rw [belongsTo_iff_of_way way]
    rintro ⟨_, hway⟩
    cases hway <;> grind

/-- The ways outward that lead to no unit are all that there are besides those that do. -/
theorem belongsTo_or_strays {element : Element} (he : m.get? e = some element) :
    (∃ unit, m.BelongsTo e unit) ∨ m.Strays e := by
  obtain ⟨x, hway, hlast | hround⟩ := exists_end_or_circle m.Passes e
  · cases hx : m.get? x with
    | none =>
      rcases Relation.reflTransGen_iff_eq_or_transGen.1 hway with rfl | hway
      · rw [he] at hx
        cases hx
      · exact .inr (.leavesModel hway hx)
    | some last =>
      by_cases hunit : last.kind = .compilationUnit
      · exact .inl ⟨x, (belongsTo_iff_of_way hway).2 ⟨_, .unit hx hunit⟩⟩
      by_cases hlibrary : last.kind = .library
      · cases hdefining : last.definingUnit with
        | none => exact .inr (.undefinedLibrary hway hx hlibrary hdefining)
        | some unit =>
          exact .inl ⟨unit, (belongsTo_iff_of_way hway).2 ⟨_, .library hx hlibrary hdefining⟩⟩
      · cases houter : last.enclosing with
        | none => exact .inr (.ends hway hx hunit hlibrary houter)
        | some outer => exact absurd ⟨last, hx, hunit, hlibrary, houter⟩ (hlast outer)
  · exact .inr (.circles hway hround)

theorem strays_iff {element : Element} (he : m.get? e = some element) :
    m.Strays e ↔ ∀ unit, ¬ m.BelongsTo e unit := by
  constructor
  · intro h unit
    exact h.not_belongsTo
  · intro h
    obtain ⟨unit, hunit⟩ | hstrays := belongsTo_or_strays he
    · exact absurd hunit (h unit)
    · exact hstrays

/-- The search for the unit of an element finds what the links lead to, however far that is; it
fails for an element that is not in the model, and for one whose links lead astray, which is
then named. -/
theorem enclosingUnit_resolves (m : Model) (e : ElementId) :
    (m.enclosingUnit e = .error (.unknownElement e) ↔ m.get? e = none) ∧
    (∀ unit, m.enclosingUnit e = .ok unit ↔ m.BelongsTo e unit) ∧
    (∀ name, m.enclosingUnit e = .error (.unlinkedElement e name) ↔
      m.Strays e ∧ (m.get? e).map Element.name = some name) ∧
    (m.get? e = none ∨ (∃ unit, m.BelongsTo e unit) ∨ m.Strays e) := by
  refine ⟨?_, fun unit => enclosingUnit_eq_ok_iff, fun name => ?_, ?_⟩
  · rw [enclosingUnit_eq_error_iff]
    simp
  · rw [enclosingUnit_eq_error_iff]
    constructor
    · rintro (⟨-, hfault⟩ | ⟨element, he, hunit, hfault⟩)
      · cases hfault
      · cases hfault
        exact ⟨(strays_iff he).2 hunit, by rw [he, Option.map_some]⟩
    · rintro ⟨hstrays, hname⟩
      obtain ⟨element, he, rfl⟩ := Option.map_eq_some_iff.1 hname
      exact .inr ⟨element, he, (strays_iff he).1 hstrays, rfl⟩
  · cases he : m.get? e with
    | none => exact .inl rfl
    | some element => exact .inr (belongsTo_or_strays he)

end Model

end UsageIndex
