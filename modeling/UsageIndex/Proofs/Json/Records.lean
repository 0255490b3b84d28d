import UsageIndex.Json.Decode
import UsageIndex.Proofs.Json.Reading

/-!
Laws of the parts that codecs are made of: what is written of them can be spelled, how deep they
nest, and what a record says about a field.
-/

set_option autoImplicit false

namespace UsageIndex.Json

variable {α : Type}

theorem spellableItems_iff (xs : List Json) : SpellableItems xs ↔ ∀ x ∈ xs, x.Spellable := by
  induction xs with
  | nil => simp [SpellableItems]
  | cons x xs ih => simp [SpellableItems, ih]

theorem spellableMembers_iff (ms : List (Text × Json)) :
    SpellableMembers ms ↔ ∀ m ∈ ms, m.2.Spellable := by
  induction ms with
  | nil => simp [SpellableMembers]
  | cons m ms ih => simp [SpellableMembers, ih]

theorem Spellable.items {j : Json} (h : j.Spellable) : SpellableItems j.items := by
  cases j with
  | array xs => exact h
  | _ => trivial

theorem Spellable.members {j : Json} (h : j.Spellable) : SpellableMembers j.members := by
  cases j with
  | object ms => exact h
  | _ => trivial

theorem spellable_ofWord (n : UInt32) : (ofWord n).Spellable := trivial

theorem spellable_bool (b : Bool) : (Json.bool b).Spellable := trivial

theorem spellable_string (s : String) : (Json.string s).Spellable := trivial

theorem spellable_ofList {encode : α → Json} (h : ∀ a, (encode a).Spellable) (xs : List α) :
    (ofList encode xs).Spellable := by
  rw [ofList, Spellable, spellableItems_iff]
  intro x hx
  obtain ⟨a, -, rfl⟩ := List.mem_map.1 hx
  exact h a

theorem spellable_record {ms : List (String × Json)} (h : ∀ m ∈ ms, m.2.Spellable) :
    (record ms).Spellable := by
  rw [record, Spellable, spellableMembers_iff]
  intro x hx
  obtain ⟨m, hm, rfl⟩ := List.mem_map.1 hx
  exact h m hm

theorem depthItems_le_iff (xs : List Json) (limit : Nat) :
    depthItems xs ≤ limit ↔ ∀ x ∈ xs, x.depth ≤ limit := by
  induction xs with
  | nil => simp [depthItems]
  | cons x xs ih => rw [depthItems, Nat.max_le, ih, List.forall_mem_cons]

theorem depthMembers_le_iff (ms : List (Text × Json)) (limit : Nat) :
    depthMembers ms ≤ limit ↔ ∀ m ∈ ms, m.2.depth ≤ limit := by
  induction ms with
  | nil => simp [depthMembers]
  | cons m ms ih => rw [depthMembers, Nat.max_le, ih, List.forall_mem_cons]

theorem depth_record_le_iff (ms : List (String × Json)) (limit : Nat) :
    (record ms).depth ≤ limit + 1 ↔ ∀ m ∈ ms, m.2.depth ≤ limit := by
  rw [record, depth, Nat.add_le_add_iff_right, depthMembers_le_iff, List.forall_mem_map]

def Given.ofOption : Option Json → Given
  | some v => .value v
  | none => .unnamed

theorem memberNames?_record (ms : List (String × Json)) :
    memberNames? (ms.map fun m => (some m.1, m.2)) = some (ms.map Prod.fst) := by
  induction ms with
  | nil => rfl
  | cons m ms ih => simp [memberNames?, ih]

theorem givenMember_record (name : String) (ms : List (String × Json)) :
    givenMember name (ms.map fun m => (some m.1, m.2)) = .ofOption (ms.lookup name) := by
  induction ms with
  | nil => rfl
  | cons m ms ih =>
    obtain ⟨other, v⟩ := m
    by_cases hm : other = name
    · simp [givenMember, member?, hm, Given.ofOption]
    · have hne : (name == other) = false := by simpa using Ne.symm hm
      simpa [givenMember, member?, hm, List.lookup_cons, hne] using ih

theorem optional_value (decode : Json → Option α) {j : Json} (h : j ≠ .null) :
    (Given.value j).optional decode = (decode j).map some := by
  unfold Given.optional
  split <;> simp_all

end UsageIndex.Json
