import UsageIndex.Options
import UsageIndex.Package.Index
import UsageIndex.Proofs.Json.Spellings

/-!
The spellings of options and of indexes. Options may be left out where they have their defaults;
an index has to have all its columns.
-/

set_option autoImplicit false

namespace UsageIndex

open Json (Need SpellsRequired SpellsOrDefault SpellsList Exactly)

namespace Options

def needs : List (String × Need) := fieldNames.map (·, .omissible)

def Spells (o : Options) : Json → Prop :=
  Json.SpellsRecord fieldNames
    [SpellsOrDefault (Exactly Json.bool) default.recordDefinitions o.recordDefinitions,
      SpellsOrDefault (Exactly Json.bool) default.indexImplicitSupertypes
        o.indexImplicitSupertypes]

theorem reads : Json.Reads Spells decode? := by
  rintro o j ⟨written, hj, hrules⟩
  obtain _ | ⟨hdefinitions, _ | ⟨hsupertypes, _ | _⟩⟩ := hrules
  have hbool : Json.Reads (Exactly Json.bool) Json.bool? := Json.reads_exactly fun _ => rfl
  rw [decode?, hj.fields? (by decide)]
  simp only [List.map_cons, List.map_nil, Option.bind_eq_bind, Option.bind_some,
    hbool.orDefault hdefinitions, hbool.orDefault hsupertypes]
  rfl

theorem decode?_misspelled {j : Json} (h : Json.Misspelled needs j) : decode? j = none := by
  refine Option.eq_none_iff_forall_ne_some.2 fun o ho => ?_
  rw [decode?, Option.bind_eq_bind, Option.bind_eq_some_iff] at ho
  obtain ⟨gs, hgs, ho⟩ := ho
  split at ho
  · exact h.not_allowed hgs (.cons (Json.allows_omissible _) (.cons (Json.allows_omissible _) .nil))
  · cases ho

theorem spells_encode (o : Options) : o.Spells o.encode :=
  ⟨_, @Json.recordOf_record fieldNames [("record_definitions", .bool o.recordDefinitions),
    ("index_implicit_supertypes", .bool o.indexImplicitSupertypes)] rfl,
    .cons (.written rfl) (.cons (.written rfl) .nil)⟩

end Options

theorem RelationKind.decode?_encode (k : RelationKind) : decode? k.encode = some k := by
  cases k <;> rfl

theorem reads_words : Json.Reads (SpellsList (Exactly Json.ofWord)) (Json.list? Json.word?) :=
  (Json.reads_exactly Json.word?_ofWord).list

namespace UnitIndex

def needs : List (String × Need) := fieldNames.map (·, .required)

def Spells (u : UnitIndex) : Json → Prop :=
  Json.SpellsRecord fieldNames
    [SpellsRequired (Exactly Json.ofWord) u.libraryUri,
      SpellsRequired (Exactly Json.ofWord) u.unitUri,
      SpellsRequired (SpellsList (Exactly Json.ofWord)) u.elements,
      SpellsRequired (SpellsList (Exactly RelationKind.encode)) u.kinds,
      SpellsRequired (SpellsList (Exactly Json.ofWord)) u.offsets,
      SpellsRequired (SpellsList (Exactly Json.ofWord)) u.lengths]

theorem reads : Json.Reads Spells decode? := by
  rintro u j ⟨written, hj, hrules⟩
  obtain _ | ⟨hlibrary, _ | ⟨hunit, _ | ⟨helements, _ | ⟨hkinds, _ | ⟨hoffsets,
    _ | ⟨hlengths, _ | _⟩⟩⟩⟩⟩⟩ := hrules
  have hword := Json.reads_exactly Json.word?_ofWord
  have hkindReads := Json.reads_exactly RelationKind.decode?_encode
  rw [decode?, hj.fields? (by decide)]
  simp only [List.map_cons, List.map_nil, Option.bind_eq_bind, Option.bind_some,
    hword.required hlibrary, hword.required hunit, reads_words.required helements,
    hkindReads.list.required hkinds, reads_words.required hoffsets, reads_words.required hlengths]
  rfl

theorem decode?_misspelled {j : Json} (h : Json.Misspelled needs j) : decode? j = none := by
  refine Option.eq_none_iff_forall_ne_some.2 fun u hu => ?_
  rw [decode?, Option.bind_eq_bind, Option.bind_eq_some_iff] at hu
  obtain ⟨gs, hgs, hu⟩ := hu
  refine h.not_allowed hgs ?_
  split at hu
  · simp only [Option.bind_eq_bind, Option.bind_eq_some_iff] at hu
    obtain ⟨_, hlibrary, _, hunit, _, helements, _, hkinds, _, hoffsets, _, hlengths, -⟩ := hu
    exact .cons (Json.allows_of_required hlibrary) (.cons (Json.allows_of_required hunit)
      (.cons (Json.allows_of_required helements) (.cons (Json.allows_of_required hkinds)
        (.cons (Json.allows_of_required hoffsets)
          (.cons (Json.allows_of_required hlengths) .nil)))))
  · cases hu

theorem spells_encode (u : UnitIndex) : u.Spells u.encode := by
  have hwords := Json.spellsList_exactly Json.ofWord
  have hkinds := Json.spellsList_exactly RelationKind.encode
  exact ⟨_, Json.recordOf_record rfl, .cons (.written rfl) (.cons (.written rfl)
    (.cons (.written (hwords u.elements)) (.cons (.written (hkinds u.kinds))
      (.cons (.written (hwords u.offsets)) (.cons (.written (hwords u.lengths)) .nil)))))⟩

end UnitIndex

namespace PackageIndex

def needs : List (String × Need) := fieldNames.map (·, .required)

def Spells (p : PackageIndex) : Json → Prop :=
  Json.SpellsRecord fieldNames
    [SpellsRequired (Exactly Json.ofWord) p.version,
      SpellsRequired (SpellsList (Exactly Json.ofWord)) p.libraryUris,
      SpellsRequired (SpellsList (Exactly Json.ofWord)) p.unitUris,
      SpellsRequired (SpellsList (Exactly Json.ofWord)) p.elementUnits,
      SpellsRequired (SpellsList (Exactly Json.ofWord)) p.elementOffsets,
      SpellsRequired (SpellsList (Exactly Json.string)) p.uris,
      SpellsRequired (SpellsList UnitIndex.Spells) p.units]

inductive Flawed : Json → Prop where
  | record {j : Json} (h : Json.Misspelled needs j) : Flawed j
  | unit {xs : List Json} {x j : Json} (hxs : Json.Gives fieldNames 6 (.array xs) j) (hx : x ∈ xs)
      (h : Json.Misspelled UnitIndex.needs x) : Flawed j

theorem reads : Json.Reads Spells decode? := by
  rintro p j ⟨written, hj, hrules⟩
  obtain _ | ⟨hversion, _ | ⟨hlibraryUris, _ | ⟨hunitUris, _ | ⟨helementUnits, _ | ⟨hoffsets,
    _ | ⟨huris, _ | ⟨hunits, _ | _⟩⟩⟩⟩⟩⟩⟩ := hrules
  have hword := Json.reads_exactly Json.word?_ofWord
  have htext : Json.Reads (Exactly Json.string) Json.text? := Json.reads_exactly fun _ => rfl
  rw [decode?, hj.fields? (by decide)]
  simp only [List.map_cons, List.map_nil, Option.bind_eq_bind, Option.bind_some,
    hword.required hversion, reads_words.required hlibraryUris, reads_words.required hunitUris,
    reads_words.required helementUnits, reads_words.required hoffsets,
    htext.list.required huris, UnitIndex.reads.list.required hunits]
  rfl

theorem exists_given {j : Json} {p : PackageIndex} (h : decode? j = some p) :
    ∃ gs, j.fields? fieldNames = some gs ∧
      List.Forall₂ (fun need g => need.2.allows g = true) needs gs ∧
      ∃ units, gs[6]? = some units ∧
        units.required (Json.list? UnitIndex.decode?) = some p.units := by
  rw [decode?, Option.bind_eq_bind, Option.bind_eq_some_iff] at h
  obtain ⟨gs, hgs, h⟩ := h
  refine ⟨gs, hgs, ?_⟩
  split at h
  · simp only [Option.bind_eq_bind, Option.bind_eq_some_iff] at h
    obtain ⟨_, hversion, _, hlibraryUris, _, hunitUris, _, helementUnits, _, hoffsets, _, huris, _,
      hunits, h⟩ := h
    cases h
    refine ⟨?_, _, rfl, hunits⟩
    exact .cons (Json.allows_of_required hversion) (.cons (Json.allows_of_required hlibraryUris)
      (.cons (Json.allows_of_required hunitUris) (.cons (Json.allows_of_required helementUnits)
        (.cons (Json.allows_of_required hoffsets) (.cons (Json.allows_of_required huris)
          (.cons (Json.allows_of_required hunits) .nil))))))
  · cases h

theorem Flawed.decode? {j : Json} (h : Flawed j) : decode? j = none := by
  refine Option.eq_none_iff_forall_ne_some.2 fun p hp => ?_
  obtain ⟨gs, hgs, hallowed, units, hunits, hread⟩ := exists_given hp
  cases h with
  | record h => exact h.not_allowed hgs hallowed
  | unit hxs hx h =>
    cases (hxs.getElem? hgs).symm.trans hunits
    cases (Json.list?_eq_none hx (UnitIndex.decode?_misspelled h)).symm.trans hread

theorem spells_encode (p : PackageIndex) : p.Spells p.encode := by
  have hwords := Json.spellsList_exactly Json.ofWord
  have huris := Json.spellsList_exactly Json.string p.uris
  have hunits := Json.spellsList_ofList UnitIndex.spells_encode p.units
  exact ⟨_, Json.recordOf_record rfl, .cons (.written rfl) (.cons (.written (hwords p.libraryUris))
    (.cons (.written (hwords p.unitUris)) (.cons (.written (hwords p.elementUnits))
      (.cons (.written (hwords p.elementOffsets)) (.cons (.written huris)
        (.cons (.written hunits) .nil))))))⟩

end PackageIndex

end UsageIndex
