import UsageIndex.Fault
import UsageIndex.Json.Printer
import UsageIndex.Unit.Index

/-!
The index of a package: columns for its elements, the URIs, and an index for each unit; the
questions it answers, and how it is written and read.
-/

set_option autoImplicit false

namespace UsageIndex

def schemaVersion : UInt32 := 1

structure PackageIndex where
  version : UInt32 := schemaVersion
  /-- For each element the number of its library's URI. -/
  libraryUris : List UInt32 := []
  /-- For each element the number of its unit's URI. -/
  unitUris : List UInt32 := []
  /-- For each element the number of its unit. -/
  elementUnits : List UInt32 := []
  /-- For each element the offset of its name. -/
  elementOffsets : List UInt32 := []
  uris : List String := []
  units : List UnitIndex := []
  deriving DecidableEq, Repr

structure PackageUsage where
  /-- The position of the unit. -/
  unit : Nat
  kind : RelationKind
  location : Location
  deriving DecidableEq, Repr

namespace PackageIndex

def elementCount (p : PackageIndex) : Nat := p.elementOffsets.length

def isAscending : List UInt32 → Bool
  | a :: b :: rest => a ≤ b && isAscending (b :: rest)
  | _ => true

/-- Whether the columns are of one length and all numbers in them are in range, and each
unit's elements ascend. -/
def isConsistent (p : PackageIndex) : Bool :=
  p.libraryUris.length == p.elementCount
    && p.unitUris.length == p.elementCount
    && p.elementUnits.length == p.elementCount
    && (p.libraryUris ++ p.unitUris).all (· < UInt32.ofNat p.uris.length)
    && p.units.all fun u =>
      u.isConsistent && u.elements.all (·.toNat < p.elementCount) && isAscending u.elements

def uri? (p : PackageIndex) (id : UInt32) : Option String := p.uris[id.toNat]?

/-- The first element whose name stands at this offset of the unit with this URI. -/
def findElement? (p : PackageIndex) (unitUri : String) (offset : UInt32) : Option UInt32 := do
  let uri ← p.uris.idxOf? unitUri
  let i ← (p.unitUris.zip p.elementOffsets).idxOf? (UInt32.ofNat uri, offset)
  return UInt32.ofNat i

def usagesOf (p : PackageIndex) (element : UInt32) : List PackageUsage :=
  p.units.zipIdx.flatMap fun (u, i) =>
    (u.usagesOf element).map fun usage => ⟨i, usage.kind, usage.location⟩

def fieldNames : List String :=
  ["schemaVersion", "elementLibraryUris", "elementUnitUris", "elementUnits", "elementOffsets",
    "uris", "units"]

def encode (p : PackageIndex) : Json :=
  .record [("schemaVersion", .ofWord p.version),
    ("elementLibraryUris", .ofList Json.ofWord p.libraryUris),
    ("elementUnitUris", .ofList Json.ofWord p.unitUris),
    ("elementUnits", .ofList Json.ofWord p.elementUnits),
    ("elementOffsets", .ofList Json.ofWord p.elementOffsets),
    ("uris", .ofList Json.string p.uris),
    ("units", .ofList UnitIndex.encode p.units)]

def decode? (j : Json) : Option PackageIndex := do
  let [version, libraryUris, unitUris, elementUnits, elementOffsets, uris, units]
    ← j.fields? fieldNames | none
  return {
    version := ← version.required Json.word?
    libraryUris := ← libraryUris.required (Json.list? Json.word?)
    unitUris := ← unitUris.required (Json.list? Json.word?)
    elementUnits := ← elementUnits.required (Json.list? Json.word?)
    elementOffsets := ← elementOffsets.required (Json.list? Json.word?)
    uris := ← uris.required (Json.list? Json.text?)
    units := ← units.required (Json.list? UnitIndex.decode?) }

def compact (p : PackageIndex) : String := p.encode.compact

def indented (p : PackageIndex) : String := p.encode.indented

/-- The index that a JSON value stands for. Another version of the layout is refused, but only
after the whole value was found to be an index. -/
def ofJson (j : Json) : Except Fault PackageIndex :=
  match decode? j with
  | none => .error .malformed
  | some p =>
    if p.version = schemaVersion then .ok p
    else .error (.unsupportedSchemaVersion p.version schemaVersion)

def read (text : String) : Except Fault PackageIndex :=
  match Json.parse? text with
  | none => .error .malformed
  | some j => ofJson j

end PackageIndex

end UsageIndex
