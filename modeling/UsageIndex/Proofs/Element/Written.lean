import UsageIndex.Proofs.Element.Spellings

/-!
Elements and models are read back from what they are written as, which is one of their spellings.
-/

set_option autoImplicit false

namespace UsageIndex

namespace ElementId

theorem spellable_encode (id : ElementId) : id.encode.Spellable := Json.spellable_ofWord id.index

end ElementId

namespace ParameterKind

theorem spellable_encode (k : ParameterKind) : k.encode.Spellable := Json.spellable_string k.name

end ParameterKind

namespace ElementKind

theorem spellable_encode (k : ElementKind) : k.encode.Spellable := by
  cases k with
  | parameter kind => exact Json.spellable_record (by simpa using kind.spellable_encode)
  | _ => trivial

end ElementKind

namespace Element

section

variable {α : Type} (encode : α → Json)

theorem spellable_of_mem_link (h : ∀ a, (encode a).Spellable) {name : String} {o : Option α}
    {m : String × Json} (hm : m ∈ link name encode o) : m.2.Spellable := by
  cases o with
  | none => cases hm
  | some a =>
    rw [List.mem_singleton.1 hm]
    exact h a

end

theorem spellable_encode (e : Element) : e.encode.Spellable := by
  have hid : ∀ name o, ∀ m ∈ link name ElementId.encode o, m.2.Spellable :=
    fun _ _ _ => spellable_of_mem_link _ ElementId.spellable_encode
  have huri : ∀ name o, ∀ m ∈ link name Json.string o, m.2.Spellable :=
    fun _ _ _ => spellable_of_mem_link _ Json.spellable_string
  refine Json.spellable_record ?_
  simp only [List.forall_mem_append]
  refine ⟨⟨⟨⟨⟨⟨⟨⟨?_, hid _ _⟩, huri _ _⟩, hid _ _⟩, hid _ _⟩, ?_⟩, hid _ _⟩, hid _ _⟩, hid _ _⟩
  · simp [ElementKind.spellable_encode, Json.spellable_string, Json.spellable_ofWord]
  · simpa using Json.spellable_bool e.isSynthetic

end Element

namespace Model

theorem decode?_encode (m : Model) : decode? m.encode = some m := reads m _ m.spells_encode

theorem spellable_encode (m : Model) : m.encode.Spellable := by
  refine Json.spellable_record ?_
  simpa using Json.spellable_ofList Element.spellable_encode m.elements

end Model

end UsageIndex
