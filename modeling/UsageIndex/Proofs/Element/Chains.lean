import Mathlib.Data.List.Chain
import Mathlib.Logic.Relation
import UsageIndex.Element.Model
import UsageIndex.Proofs.Listing

/-!
The chain of elements around an element. It follows the enclosing links one by one, so it shows
just the elements that the links lead to, in the order of the links. Links that run into a circle
never end; the chain then has as many items as the model has elements, and goes round the circle
until they are used up.
-/

set_option autoImplicit false

namespace UsageIndex

namespace Model

/-- The first element names the second as the one around it. -/
def Links (m : Model) (a b : ElementId) : Prop := (m.get? a).bind Element.enclosing = some b

/-- The enclosing links lead from the first element to the second, which is in the model. -/
structure LeadsOut (m : Model) (a b : ElementId) : Prop where
  links : Relation.ReflTransGen m.Links a b
  known : ∃ element, m.get? b = some element

def outward (m : Model) : Nat → ElementId → Option (ElementId × Element)
  | 0, id => (m.get? id).map (id, ·)
  | k + 1, id => ((m.get? id).bind Element.enclosing).bind (m.outward k)

variable {m : Model} {id : ElementId}

theorem outward_eq_none (h : m.get? id = none) (k : Nat) : m.outward k id = none := by
  cases k <;> simp [outward, h]

theorem Links.outward {a b : ElementId} (h : m.Links a b) (k : Nat) :
    m.outward (k + 1) a = m.outward k b := by
  rw [Model.outward, h, Option.bind_some]

theorem outward_add (j k : Nat) (id : ElementId) :
    m.outward (j + k) id = (m.outward j id).bind fun p => m.outward k p.1 := by
  induction j generalizing id with
  | zero =>
    rw [Nat.zero_add]
    cases he : m.get? id with
    | none => simp [outward_eq_none he]
    | some element => simp [outward, he]
  | succ j ih =>
    rw [Nat.succ_add, outward, outward]
    cases (m.get? id).bind Element.enclosing with
    | none => rfl
    | some outer => exact ih outer

theorem exists_outward_of_le {j k : Nat} (hjk : j ≤ k) {p : ElementId × Element}
    (h : m.outward k id = some p) : ∃ q, m.outward j id = some q := by
  obtain ⟨rest, rfl⟩ := Nat.exists_eq_add_of_le hjk
  rw [outward_add] at h
  obtain ⟨q, hq, -⟩ := Option.bind_eq_some_iff.1 h
  exact ⟨q, hq⟩

theorem exists_links_of_outward {k : Nat} {p : ElementId × Element}
    (h : m.outward (k + 1) id = some p) :
    ∃ outer, m.Links id outer ∧ m.outward k outer = some p :=
  Option.bind_eq_some_iff.1 h

theorem leadsOut_of_outward {k : Nat} {p : ElementId × Element}
    (h : m.outward k id = some p) : m.LeadsOut id p.1 ∧ m.get? p.1 = some p.2 := by
  induction k generalizing id with
  | zero =>
    obtain ⟨element, he, rfl⟩ := Option.map_eq_some_iff.1 h
    exact ⟨⟨.refl, element, he⟩, he⟩
  | succ k ih =>
    obtain ⟨outer, hlink, hrest⟩ := exists_links_of_outward h
    obtain ⟨hout, hget⟩ := ih hrest
    exact ⟨⟨.head hlink hout.links, hout.known⟩, hget⟩

theorem LeadsOut.exists_outward {x : ElementId} (h : m.LeadsOut id x) :
    ∃ k element, m.outward k id = some (x, element) := by
  obtain ⟨hlinks, element, he⟩ := h
  induction hlinks using Relation.ReflTransGen.head_induction_on with
  | refl => exact ⟨0, element, by simp [outward, he]⟩
  | head hlink _ ih =>
    obtain ⟨k, element, hk⟩ := ih
    exact ⟨k + 1, element, (hlink.outward k).trans hk⟩

theorem transGen_of_outward {k : Nat} {p : ElementId × Element}
    (h : m.outward (k + 1) id = some p) : Relation.TransGen m.Links id p.1 := by
  obtain ⟨outer, hlink, hrest⟩ := exists_links_of_outward h
  exact Relation.TransGen.head'_iff.2 ⟨outer, hlink, (leadsOut_of_outward hrest).1.links⟩

theorem circle_of_outward_eq {j k : Nat} (hjk : j < k) {p : ElementId × Element}
    (hj : m.outward j id = some p) (hk : m.outward k id = some p) :
    Relation.TransGen m.Links p.1 p.1 := by
  obtain ⟨rest, rfl⟩ := Nat.exists_eq_add_of_lt hjk
  rw [Nat.add_assoc, outward_add, hj, Option.bind_some] at hk
  exact transGen_of_outward hk

theorem exists_outward_of_circle {x : ElementId} (h : Relation.TransGen m.Links x x) (k : Nat) :
    ∃ p, m.outward k x = some p := by
  induction k generalizing x with
  | zero =>
    obtain ⟨outer, hlink, -⟩ := Relation.TransGen.head'_iff.1 h
    obtain ⟨element, he, -⟩ := Option.bind_eq_some_iff.1 hlink
    exact ⟨(x, element), by simp [outward, he]⟩
  | succ k ih =>
    obtain ⟨outer, hlink, hback⟩ := Relation.TransGen.head'_iff.1 h
    rw [hlink.outward]
    exact ih (Relation.TransGen.tail' hback hlink)

theorem chainFrom_none (limit : Nat) : m.chainFrom limit none = [] := by
  cases limit <;> rfl

theorem getElem?_chainFrom (limit k : Nat) (id : ElementId) :
    (m.chainFrom limit (some id))[k]? = if k < limit then m.outward k id else none := by
  induction limit generalizing k id with
  | zero => simp [chainFrom]
  | succ limit ih =>
    cases he : m.get? id with
    | none => simp [chainFrom, he, outward_eq_none he]
    | some element =>
      cases k with
      | zero => simp [chainFrom, he, outward]
      | succ k =>
        cases houter : element.enclosing with
        | none => simp [chainFrom, he, houter, chainFrom_none, outward]
        | some outer => simp [chainFrom, he, houter, outward, ih]

theorem isChain_chainFrom (limit : Nat) (start : Option ElementId) :
    (m.chainFrom limit start).IsChain fun a b => a.2.enclosing = some b.1 := by
  induction limit generalizing start with
  | zero => exact .nil
  | succ limit ih =>
    cases start with
    | none => exact .nil
    | some id =>
      cases he : m.get? id with
      | none => simp [chainFrom, he]
      | some element =>
        simp only [chainFrom, he]
        refine (ih element.enclosing).cons ?_
        intro next hnext
        cases houter : element.enclosing with
        | none => simp [houter, chainFrom_none] at hnext
        | some outer =>
          rw [houter, List.head?_eq_getElem?, getElem?_chainFrom, Option.mem_def] at hnext
          split at hnext
          · obtain ⟨_, -, rfl⟩ := Option.map_eq_some_iff.1 hnext
            rfl
          · cases hnext

theorem exists_outward_of_mem {limit : Nat} {p : ElementId × Element}
    (h : p ∈ m.chainFrom limit (some id)) : ∃ k < limit, m.outward k id = some p := by
  obtain ⟨k, hk⟩ := List.mem_iff_getElem?.1 h
  rw [getElem?_chainFrom] at hk
  split at hk
  · exact ⟨k, ‹_›, hk⟩
  · cases hk

theorem mem_of_outward {limit k : Nat} (hk : k < limit) {p : ElementId × Element}
    (h : m.outward k id = some p) : p ∈ m.chainFrom limit (some id) := by
  refine List.mem_iff_getElem?.2 ⟨k, ?_⟩
  rw [getElem?_chainFrom, if_pos hk, h]

theorem lt_length_of_outward {limit k : Nat} (hk : k < limit) {p : ElementId × Element}
    (h : m.outward k id = some p) : k < (m.chainFrom limit (some id)).length := by
  have hget : (m.chainFrom limit (some id))[k]? = some p := by
    rw [getElem?_chainFrom, if_pos hk, h]
  exact (List.getElem?_eq_some_iff.1 hget).1

/-- Where a chain shows an item twice, the item is met on two ways of different length. -/
theorem nodup_chainFrom_iff {limit : Nat} :
    (m.chainFrom limit (some id)).Nodup ↔
      ∀ j k p, j < k → k < limit → m.outward j id = some p → m.outward k id ≠ some p := by
  rw [List.nodup_iff_getElem?_ne_getElem?]
  constructor
  · intro h j k p hjk hk hj hk'
    refine h j k hjk (lt_length_of_outward hk hk') ?_
    rw [getElem?_chainFrom, getElem?_chainFrom, if_pos (hjk.trans hk), if_pos hk, hj, hk']
  · intro h j k hjk hk heq
    have hlimit := Nat.lt_of_lt_of_le hk (m.length_chainFrom_le limit (some id))
    rw [List.getElem?_eq_getElem hk] at heq
    have hj := heq
    have hk' := List.getElem?_eq_getElem hk
    rw [getElem?_chainFrom, if_pos (hjk.trans hlimit)] at hj
    rw [getElem?_chainFrom, if_pos hlimit] at hk'
    exact h j k _ hjk hlimit hj hk'

def positions (l : List (ElementId × Element)) : List Nat := l.map fun p => p.1.index.toNat

theorem positions_subset (limit : Nat) (id : ElementId) :
    positions (m.chainFrom limit (some id)) ⊆ List.range m.size := by
  intro i hi
  obtain ⟨p, hp, rfl⟩ := List.mem_map.1 hi
  obtain ⟨k, -, hk⟩ := exists_outward_of_mem hp
  exact List.mem_range.2 (List.getElem?_eq_some_iff.1 (leadsOut_of_outward hk).2).1

theorem nodup_ids_iff {limit : Nat} :
    ((m.chainFrom limit (some id)).map Prod.fst).Nodup ↔ (m.chainFrom limit (some id)).Nodup := by
  refine ⟨List.Nodup.of_map _, fun h => h.map_on ?_⟩
  intro p hp q hq heq
  obtain ⟨j, -, hj⟩ := exists_outward_of_mem hp
  obtain ⟨k, -, hk⟩ := exists_outward_of_mem hq
  have hp' := (leadsOut_of_outward hj).2
  have hq' := (leadsOut_of_outward hk).2
  rw [heq] at hp'
  exact Prod.ext heq (Option.some.inj (hp'.symm.trans hq'))

theorem nodup_positions_iff {limit : Nat} :
    (positions (m.chainFrom limit (some id))).Nodup ↔ (m.chainFrom limit (some id)).Nodup := by
  have hinj : Function.Injective fun e : ElementId => e.index.toNat := by
    rintro ⟨a⟩ ⟨b⟩ h
    exact congrArg ElementId.mk (UInt32.toNat_inj.1 h)
  rw [← nodup_ids_iff, ← List.nodup_map_iff hinj, List.map_map]
  rfl

theorem length_le_size_of_nodup {limit : Nat} (h : (m.chainFrom limit (some id)).Nodup) :
    (m.chainFrom limit (some id)).length ≤ m.size := by
  have hle := ((nodup_positions_iff.2 h).subperm (positions_subset limit id)).length_le
  rwa [positions, List.length_map, List.length_range] at hle

/-- What links lead to is met within as many steps as the model has elements. -/
theorem exists_outward_lt {k : Nat} {p : ElementId × Element} (h : m.outward k id = some p) :
    ∃ j < m.size, m.outward j id = some p := by
  induction k using Nat.strongRecOn with
  | ind k ih =>
    by_cases hnodup : (m.chainFrom (k + 1) (some id)).Nodup
    · have hlt := lt_length_of_outward (Nat.lt_succ_self k) h
      exact ⟨k, Nat.lt_of_lt_of_le hlt (length_le_size_of_nodup hnodup), h⟩
    · -- a round between two visits of one element can be left out
      rw [nodup_chainFrom_iff] at hnodup
      push Not at hnodup
      obtain ⟨i, j, q, hij, hjk, hi, hj⟩ := hnodup
      obtain ⟨rest, rfl⟩ := Nat.exists_eq_add_of_le (Nat.le_of_lt_succ hjk)
      refine ih (i + rest) (by omega) ?_
      rw [outward_add, hj] at h
      rw [outward_add, hi]
      exact h

theorem mem_enclosingChain_iff {x : ElementId} {element : Element} :
    (x, element) ∈ m.enclosingChain id ↔ m.LeadsOut id x ∧ m.get? x = some element := by
  constructor
  · intro h
    obtain ⟨k, -, hk⟩ := exists_outward_of_mem h
    exact leadsOut_of_outward hk
  · rintro ⟨hout, hget⟩
    obtain ⟨k, element', hk⟩ := hout.exists_outward
    obtain rfl := Option.some.inj ((leadsOut_of_outward hk).2.symm.trans hget)
    obtain ⟨j, hj, hj'⟩ := exists_outward_lt hk
    exact mem_of_outward hj hj'

theorem head?_enclosingChain (m : Model) (id : ElementId) :
    (m.enclosingChain id).head? = (m.get? id).map (id, ·) := by
  rw [enclosingChain, List.head?_eq_getElem?, getElem?_chainFrom]
  cases he : m.get? id with
  | none => simp [outward_eq_none he]
  | some element =>
    have hsize : 0 < m.size := Nat.zero_lt_of_lt (List.getElem?_eq_some_iff.1 he).1
    simp [hsize, outward, he]

theorem mem_positions_enclosingChain {i : Nat} :
    i ∈ positions (m.enclosingChain id) ↔ ∃ x, m.LeadsOut id x ∧ x.index.toNat = i := by
  rw [positions, List.mem_map]
  constructor
  · rintro ⟨p, hp, rfl⟩
    exact ⟨p.1, (mem_enclosingChain_iff.1 hp).1, rfl⟩
  · rintro ⟨x, hout, rfl⟩
    obtain ⟨element, he⟩ := hout.known
    exact ⟨(x, element), mem_enclosingChain_iff.2 ⟨hout, he⟩, rfl⟩

theorem nodup_enclosingChain_of_noCircle
    (h : ∀ x, m.LeadsOut id x → ¬ Relation.TransGen m.Links x x) :
    (m.enclosingChain id).Nodup := by
  refine nodup_chainFrom_iff.2 ?_
  intro j k p hjk _ hj hk
  exact h p.1 (leadsOut_of_outward hj).1 (circle_of_outward_eq hjk hj hk)

theorem nodup_enclosingChain_of_all (h : ∀ i < m.size, ∃ x, m.LeadsOut id x ∧ x.index.toNat = i) :
    (m.enclosingChain id).Nodup := by
  have hsub : List.range m.size ⊆ positions (m.enclosingChain id) := by
    intro i hi
    exact mem_positions_enclosingChain.2 (h i (List.mem_range.1 hi))
  have hlen : (positions (m.enclosingChain id)).length ≤ (List.range m.size).length := by
    rw [positions, List.length_map, List.length_range]
    exact m.length_chainFrom_le m.size (some id)
  have hperm := (List.nodup_range.subperm hsub).perm_of_length_le hlen
  exact nodup_positions_iff.1 (hperm.nodup_iff.1 List.nodup_range)

/-- A chain that runs into a circle is as long as it may be. -/
theorem length_enclosingChain_of_circle {x : ElementId} (hout : m.LeadsOut id x)
    (h : Relation.TransGen m.Links x x) : (m.enclosingChain id).length = m.size := by
  refine Nat.le_antisymm (m.length_chainFrom_le m.size (some id)) (Nat.le_of_not_lt fun hlt => ?_)
  obtain ⟨k, element, hk⟩ := hout.exists_outward
  obtain ⟨p, hp⟩ := exists_outward_of_circle h (m.enclosingChain id).length
  have hfar : m.outward (k + (m.enclosingChain id).length) id = some p := by
    rw [outward_add, hk]
    exact hp
  obtain ⟨q, hq⟩ := exists_outward_of_le (Nat.le_add_left _ k) hfar
  exact Nat.lt_irrefl _ (lt_length_of_outward hlt hq)

theorem all_of_nodup_of_circle (hnodup : (m.enclosingChain id).Nodup) {x : ElementId}
    (hout : m.LeadsOut id x) (h : Relation.TransGen m.Links x x) :
    ∀ i < m.size, ∃ x, m.LeadsOut id x ∧ x.index.toNat = i := by
  have hlen : (List.range m.size).length ≤ (positions (m.enclosingChain id)).length := by
    rw [positions, List.length_map, List.length_range, length_enclosingChain_of_circle hout h]
  have hperm := ((nodup_positions_iff.2 hnodup).subperm
    (positions_subset m.size id)).perm_of_length_le hlen
  intro i hi
  exact mem_positions_enclosingChain.1 (hperm.mem_iff.2 (List.mem_range.2 hi))

/-- The chain begins with the element, follows the links and shows just what they lead to. It
shows nothing twice if the links run into no circle, and otherwise only if they lead to every
element of the model. -/
theorem enclosingChain_visits (m : Model) (id : ElementId) :
    (m.enclosingChain id).head? = (m.get? id).map (id, ·) ∧
    (m.enclosingChain id).IsChain (fun a b => a.2.enclosing = some b.1) ∧
    (∀ x element, (x, element) ∈ m.enclosingChain id ↔
      m.LeadsOut id x ∧ m.get? x = some element) ∧
    (((m.enclosingChain id).map Prod.fst).Nodup ↔
      (∀ x, m.LeadsOut id x → ¬ Relation.TransGen m.Links x x) ∨
      ∀ i < m.size, ∃ x, m.LeadsOut id x ∧ x.index.toNat = i) := by
  refine ⟨m.head?_enclosingChain id, isChain_chainFrom m.size (some id),
    fun x element => mem_enclosingChain_iff, nodup_ids_iff.trans ⟨?_, ?_⟩⟩
  · intro hnodup
    by_cases hcircle : ∃ x, m.LeadsOut id x ∧ Relation.TransGen m.Links x x
    · obtain ⟨x, hout, h⟩ := hcircle
      exact .inr (all_of_nodup_of_circle hnodup hout h)
    · exact .inl fun x hout h => hcircle ⟨x, hout, h⟩
  · rintro (hnone | hall)
    · exact nodup_enclosingChain_of_noCircle hnone
    · exact nodup_enclosingChain_of_all hall

end Model

namespace Sample

/-- Two classes that enclose each other, and one apart from them. -/
def circleModel : Model := ⟨[
  { kind := .classType, name := "A", nameOffset := 0, enclosing := some ⟨1⟩ },
  { kind := .classType, name := "B", nameOffset := 0, enclosing := some ⟨0⟩ },
  { kind := .classType, name := "C", nameOffset := 0 }]⟩

end Sample

/-- The third class leaves room for one more item, and the chain begins the circle again. -/
theorem enclosingChain_circle_repeats :
    (Sample.circleModel.enclosingChain ⟨0⟩).map Prod.fst = [⟨0⟩, ⟨1⟩, ⟨0⟩] ∧
      ¬ ((Sample.circleModel.enclosingChain ⟨0⟩).map Prod.fst).Nodup := by
  decide

end UsageIndex
