import UsageIndex.Proofs.Package.Spellings
import UsageIndex.Proofs.Tree.Flaws
import UsageIndex.Proofs.Tree.Written

/-!
What is read in and written out may be spelled in any of the equivalent ways. For each type, what
is written of a value is one of its spellings, all of them are read as the value, and what has a
flaw is refused.
-/

set_option autoImplicit false

namespace UsageIndex

/-- All spellings of a value are read as the value, and nothing is read from what is flawed. -/
structure Json.Tolerant {α : Type} (encode : α → Json) (decode : Json → Option α)
    (spells : α → Json → Prop) (flawed : Json → Prop) : Prop where
  encoded : ∀ a, spells a (encode a)
  read : ∀ a j, spells a j → decode j = some a
  refused : ∀ j, flawed j → decode j = none

/-- As `Json.Tolerant`, for trees, which may nest too deep to be read. What is read of a spelling
nests no deeper than the spelling, and no deeper than what is written of the tree. -/
structure Tree.Tolerant (f : Form) : Prop where
  encoded : ∀ t : Tree f, t.Spells t.encode.depth t.encode
  read : ∀ (t : Tree f) d j, t.Spells d j → decode? f j = if d ≤ nestingLimit then some t else none
  depth : ∀ (t : Tree f) d j, t.Spells d j → d ≤ j.depth ∧ d ≤ t.encode.depth
  refused : ∀ j, Flawed f j → decode? f j = none

theorem Tree.tolerant {f : Form} (hf : f.isReadable = true) : Tolerant f where
  encoded t := (t.encoded hf).whole
  read t _ _ h := (t.readable hf).whole h nestingLimit
  depth t _ _ h := ⟨t.shallow.whole h, t.deepest.whole h⟩
  refused _ h := h.decodeWithin? hf nestingLimit

theorem Tree.Tolerant.unitsOfJson (h : Tolerant (.many (.node .compilationUnit))) :
    (∀ units d j, (Tree.ofList units).Spells d j →
      unitsOfJson j = if d ≤ nestingLimit then .ok units else .error .malformed) ∧
    ∀ j, Flawed (.many (.node .compilationUnit)) j → unitsOfJson j = .error .malformed := by
  refine ⟨fun units d j hj => ?_, fun j hj => ?_⟩
  · rw [UsageIndex.unitsOfJson, h.read _ d j hj]
    by_cases hd : d ≤ nestingLimit <;> simp [hd]
  · rw [UsageIndex.unitsOfJson, h.refused j hj]

theorem Element.tolerant :
    Json.Tolerant encode decode? Spells (Json.Misspelled needs) :=
  ⟨spells_encode, reads, fun _ => decode?_misspelled⟩

theorem Model.tolerant : Json.Tolerant encode decode? Spells Flawed :=
  ⟨spells_encode, reads, fun _ => Flawed.decode?⟩

theorem Options.tolerant : Json.Tolerant encode decode? Spells (Json.Misspelled needs) :=
  ⟨spells_encode, reads, fun _ => decode?_misspelled⟩

theorem UnitIndex.tolerant : Json.Tolerant encode decode? Spells (Json.Misspelled needs) :=
  ⟨spells_encode, reads, fun _ => decode?_misspelled⟩

theorem PackageIndex.tolerant : Json.Tolerant encode decode? Spells Flawed :=
  ⟨spells_encode, reads, fun _ => Flawed.decode?⟩

/-- Members in any order, unknown members, fields that are null or left out where they may be, and
arrays in place of objects, at any depth and in any combination: all of it is read as the value it
stands for. A known name that is repeated, an item too many or a field that has to be there and is
not are refused wherever they are. -/
theorem spellings_tolerated :
    (∀ k : NodeKind, Tree.Tolerant (.node k)) ∧
    Tree.Tolerant .token ∧
    Tree.Tolerant .identifier ∧
    (∀ (units : List (Node .compilationUnit)) d j, (Tree.ofList units).Spells d j →
      unitsOfJson j = if d ≤ nestingLimit then .ok units else .error .malformed) ∧
    (∀ j, Tree.Flawed (.many (.node .compilationUnit)) j → unitsOfJson j = .error .malformed) ∧
    Json.Tolerant Element.encode Element.decode? Element.Spells (Json.Misspelled Element.needs) ∧
    Json.Tolerant Model.encode Model.decode? Model.Spells Model.Flawed ∧
    Json.Tolerant Options.encode Options.decode? Options.Spells (Json.Misspelled Options.needs) ∧
    Json.Tolerant UnitIndex.encode UnitIndex.decode? UnitIndex.Spells
      (Json.Misspelled UnitIndex.needs) ∧
    Json.Tolerant PackageIndex.encode PackageIndex.decode? PackageIndex.Spells
      PackageIndex.Flawed := by
  have hunits : Tree.Tolerant (.many (.node .compilationUnit)) := Tree.tolerant rfl
  obtain ⟨hread, hrefused⟩ := hunits.unitsOfJson
  exact ⟨fun _ => Tree.tolerant rfl, Tree.tolerant rfl, Tree.tolerant (by decide), hread, hrefused,
    Element.tolerant, Model.tolerant, Options.tolerant, UnitIndex.tolerant, PackageIndex.tolerant⟩

-- An array of the two lists of a unit, without its element, is not taken for one with the element.
example : Tree.decode? (.node .compilationUnit) (.array [.ofWord 0, .array [], .array []]) =
      some (.node .compilationUnit (.slot (.element ⟨0⟩) (.slot .nil (.slot .nil .done)))) ∧
    Tree.decode? (.node .compilationUnit) (.array [.array [], .array []]) = none := ⟨rfl, rfl⟩

end UsageIndex
