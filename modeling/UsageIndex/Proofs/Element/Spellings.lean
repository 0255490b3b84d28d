import UsageIndex.Element.Model
import UsageIndex.Proofs.Json.Spellings

/-!
The spellings of elements and models. Links that an element does not have may be left out or be
null, and an element that does not say whether it is synthetic is not.
-/

set_option autoImplicit false

namespace UsageIndex

open Json (Need SpellsRequired SpellsOptional SpellsOrDefault SpellsList Exactly)

theorem ElementId.decode?_encode (id : ElementId) : decode? id.encode = some id := by
  rw [decode?, encode, Json.word?_ofWord]
  rfl

theorem ElementKind.decode?_encode (k : ElementKind) : decode? k.encode = some k := by
  cases k with
  | parameter kind => cases kind <;> rfl
  | _ => rfl

namespace Element

def needs : List (String × Need) :=
  fieldNames.zip [.required, .required, .required, .optional, .optional, .optional, .optional,
    .omissible, .optional, .optional, .optional]

def Spells (e : Element) : Json → Prop :=
  Json.SpellsRecord fieldNames
    [SpellsRequired (Exactly ElementKind.encode) e.kind,
      SpellsRequired (Exactly Json.string) e.name,
      SpellsRequired (Exactly Json.ofWord) e.nameOffset,
      SpellsOptional (Exactly ElementId.encode) e.enclosing,
      SpellsOptional (Exactly Json.string) e.sourceUri,
      SpellsOptional (Exactly ElementId.encode) e.definingUnit,
      SpellsOptional (Exactly ElementId.encode) e.supertype,
      SpellsOrDefault (Exactly Json.bool) false e.isSynthetic,
      SpellsOptional (Exactly ElementId.encode) e.redirectedConstructor,
      SpellsOptional (Exactly ElementId.encode) e.field,
      SpellsOptional (Exactly ElementId.encode) e.library]

theorem reads : Json.Reads Spells decode? := by
  rintro e j ⟨written, hj, hrules⟩
  obtain _ | ⟨hkind, _ | ⟨hname, _ | ⟨hoffset, _ | ⟨henclosing, _ | ⟨huri, _ | ⟨hunit,
    _ | ⟨hsupertype, _ | ⟨hsynthetic, _ | ⟨hredirected, _ | ⟨hfield, _ | ⟨hlibrary,
      _ | _⟩⟩⟩⟩⟩⟩⟩⟩⟩⟩⟩ := hrules
  have hkindReads := Json.reads_exactly ElementKind.decode?_encode
  have htextReads : Json.Reads (Exactly Json.string) Json.text? := Json.reads_exactly fun _ => rfl
  have hboolReads : Json.Reads (Exactly Json.bool) Json.bool? := Json.reads_exactly fun _ => rfl
  have hidReads := Json.reads_exactly ElementId.decode?_encode
  have hid : ∀ {o w}, SpellsOptional (Exactly ElementId.encode) o w →
      (Json.Given.ofOption w).optional ElementId.decode? = some o :=
    fun h => hidReads.optional (fun _ => nofun) h
  rw [decode?, hj.fields? (by decide)]
  simp only [List.map_cons, List.map_nil, Option.bind_eq_bind, Option.bind_some,
    hkindReads.required hkind, htextReads.required hname,
    (Json.reads_exactly Json.word?_ofWord).required hoffset, hid henclosing,
    htextReads.optional (fun _ => nofun) huri, hid hunit, hid hsupertype,
    hboolReads.orDefault hsynthetic, hid hredirected, hid hfield, hid hlibrary]
  rfl

theorem decode?_misspelled {j : Json} (h : Json.Misspelled needs j) : decode? j = none := by
  refine Option.eq_none_iff_forall_ne_some.2 fun e he => ?_
  rw [decode?, Option.bind_eq_bind, Option.bind_eq_some_iff] at he
  obtain ⟨gs, hgs, he⟩ := he
  refine h.not_allowed hgs ?_
  split at he
  · simp only [Option.bind_eq_bind, Option.bind_eq_some_iff] at he
    obtain ⟨_, hkind, _, hname, _, hoffset, _, henclosing, _, huri, _, hunit, _, hsupertype, _, -,
      _, hredirected, _, hfield, _, hlibrary, -⟩ := he
    refine .cons (Json.allows_of_required hkind) (.cons (Json.allows_of_required hname)
      (.cons (Json.allows_of_required hoffset) (.cons (Json.allows_of_optional henclosing)
        (.cons (Json.allows_of_optional huri) (.cons (Json.allows_of_optional hunit)
          (.cons (Json.allows_of_optional hsupertype) (.cons (Json.allows_omissible _)
            (.cons (Json.allows_of_optional hredirected) (.cons (Json.allows_of_optional hfield)
              (.cons (Json.allows_of_optional hlibrary) .nil))))))))))
  · cases he

theorem link_eq {α : Type} (name : String) (encode : α → Json) (o : Option α) :
    link name encode o = ((o.map encode).map fun v => (name, v)).toList := by
  cases o <;> rfl

theorem spells_encode (e : Element) : e.Spells e.encode := by
  let written := [some e.kind.encode, some (.string e.name), some (.ofWord e.nameOffset),
    e.enclosing.map ElementId.encode, e.sourceUri.map Json.string,
    e.definingUnit.map ElementId.encode, e.supertype.map ElementId.encode,
    some (.bool e.isSynthetic), e.redirectedConstructor.map ElementId.encode,
    e.field.map ElementId.encode, e.library.map ElementId.encode]
  have hencode : e.encode = .record (Json.named fieldNames written) := by
    simp [encode, written, fieldNames, Json.named_cons, Json.named, link_eq]
  refine ⟨written, hencode ▸ Json.recordOf_named rfl, ?_⟩
  have hid := @Json.spellsOptional_map ElementId ElementId.encode
  exact .cons (.written rfl) (.cons (.written rfl) (.cons (.written rfl) (.cons (hid _)
    (.cons (Json.spellsOptional_map _) (.cons (hid _) (.cons (hid _) (.cons (.written rfl)
      (.cons (hid _) (.cons (hid _) (.cons (hid _) .nil))))))))))

end Element

namespace Model

def needs : List (String × Need) := fieldNames.map (·, .required)

def Spells (m : Model) : Json → Prop :=
  Json.SpellsRecord fieldNames [SpellsRequired (SpellsList Element.Spells) m.elements]

inductive Flawed : Json → Prop where
  | record {j : Json} (h : Json.Misspelled needs j) : Flawed j
  | element {xs : List Json} {x j : Json} (hxs : Json.Gives fieldNames 0 (.array xs) j)
      (hx : x ∈ xs) (h : Json.Misspelled Element.needs x) : Flawed j

theorem reads : Json.Reads Spells decode? := by
  rintro m j ⟨written, hj, hrules⟩
  obtain _ | ⟨helements, _ | _⟩ := hrules
  rw [decode?, hj.fields? (by decide)]
  simp only [List.map_cons, List.map_nil, Option.bind_eq_bind, Option.bind_some,
    Element.reads.list.required helements]
  rfl

theorem exists_given {j : Json} {m : Model} (h : decode? j = some m) :
    ∃ elements, j.fields? fieldNames = some [elements] ∧
      elements.required (Json.list? Element.decode?) = some m.elements := by
  rw [decode?, Option.bind_eq_bind, Option.bind_eq_some_iff] at h
  obtain ⟨gs, hgs, h⟩ := h
  split at h
  · rw [Option.bind_eq_bind, Option.bind_eq_some_iff] at h
    obtain ⟨_, helements, h⟩ := h
    cases h
    exact ⟨_, hgs, helements⟩
  · cases h

theorem Flawed.decode? {j : Json} (h : Flawed j) : decode? j = none := by
  refine Option.eq_none_iff_forall_ne_some.2 fun m hm => ?_
  obtain ⟨elements, hgs, helements⟩ := exists_given hm
  cases h with
  | record h => exact h.not_allowed hgs (.cons (Json.allows_of_required helements) .nil)
  | element hxs hx h =>
    cases hxs.getElem? hgs
    cases (Json.list?_eq_none hx (Element.decode?_misspelled h)).symm.trans helements

theorem spells_encode (m : Model) : m.Spells m.encode :=
  ⟨_, @Json.recordOf_record fieldNames [("elements", .ofList Element.encode m.elements)] rfl,
    .cons (.written (Json.spellsList_ofList Element.spells_encode m.elements)) .nil⟩

end Model

end UsageIndex
