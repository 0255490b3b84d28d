import UsageIndex.Proofs.Package.Spellings

/-!
A package index is read back from what it is written as, compact or indented, whatever its
columns hold; an index of another version is refused, and for its version only.
-/

set_option autoImplicit false

namespace UsageIndex

theorem RelationKind.spellable_encode (k : RelationKind) : k.encode.Spellable :=
  Json.spellable_string k.name

namespace UnitIndex

theorem spellable_encode (u : UnitIndex) : u.encode.Spellable := by
  refine Json.spellable_record ?_
  simp [Json.spellable_ofWord, Json.spellable_ofList Json.spellable_ofWord,
    Json.spellable_ofList RelationKind.spellable_encode]

end UnitIndex

namespace PackageIndex

theorem decode?_encode (p : PackageIndex) : decode? p.encode = some p := reads p _ p.spells_encode

theorem spellable_encode (p : PackageIndex) : p.encode.Spellable := by
  refine Json.spellable_record ?_
  simp [Json.spellable_ofWord, Json.spellable_ofList Json.spellable_ofWord,
    Json.spellable_ofList Json.spellable_string, Json.spellable_ofList UnitIndex.spellable_encode]

theorem ofJson_encode (p : PackageIndex) :
    ofJson p.encode = if p.version = schemaVersion then .ok p
      else .error (.unsupportedSchemaVersion p.version schemaVersion) := by
  rw [ofJson, decode?_encode]

/-- What is written of an index is read as the index if its version is the current one, and is
refused for its version if not; either way it is well formed. -/
theorem read_written (p : PackageIndex) :
    (read p.compact = if p.version = schemaVersion then .ok p
      else .error (.unsupportedSchemaVersion p.version schemaVersion)) ∧
    (read p.indented = if p.version = schemaVersion then .ok p
      else .error (.unsupportedSchemaVersion p.version schemaVersion)) := by
  have hcompact : Json.parse? p.compact = some p.encode := Json.parse?_compact p.spellable_encode
  have hindented : Json.parse? p.indented = some p.encode :=
    Json.parse?_indented p.spellable_encode
  constructor
  · rw [read, hcompact]
    exact p.ofJson_encode
  · rw [read, hindented]
    exact p.ofJson_encode

end PackageIndex

end UsageIndex
