import UsageIndex.Package.Index
import UsageIndex.Tree.Json
import UsageIndex.Unit.Contribution

/-!
Building the index of a package from its compilation units.
-/

set_option autoImplicit false

namespace UsageIndex

structure PackageBuilder where
  model : Model
  options : Options := {}
  tables : Tables := {}
  units : List UnitRecorder := []
  log : List LogEvent := []
  deriving DecidableEq, Repr

namespace PackageBuilder

def unitCount (b : PackageBuilder) : Nat := b.units.length

def addUnit (b : PackageBuilder) (key : UnitKey) (unit : Node .compilationUnit) : PackageBuilder :=
  let start : Recording := { tables := b.tables, unit := { key }, log := b.log }
  let recorded := start.contribute b.model b.options unit
  let uri := (recorded.tables.uris.get? key.unit).getD "<unknown>"
  { b with
    tables := recorded.tables
    units := b.units ++ [recorded.unit]
    log := recorded.log ++ [.indexedUnit uri recorded.unit.relations.length] }

/-- Records a unit. Only a unit whose own URIs cannot be found fails. -/
def enterUnit (unit : Node .compilationUnit) : InPlace PackageBuilder Unit := do
  let key ← (UriTable.enterUnit (← get).model unit.unitElement).on (·.tables.uris)
    fun b uris => { b with tables := { b.tables with uris } }
  modify (·.addUnit key unit)

def indexUnit (b : PackageBuilder) (unit : Node .compilationUnit) :
    Except Fault PackageBuilder :=
  ((enterUnit unit).outcome b).map Prod.snd

/-- Records units one after the other, also after one that fails, and gives the results in
order. -/
def enterEach (b : PackageBuilder) :
    List (Node .compilationUnit) → List (Except Fault Unit) × PackageBuilder
  | [] => ([], b)
  | unit :: rest =>
    let (result, b) := (enterUnit unit).runOn b
    let (results, b) := b.enterEach rest
    (result :: results, b)

def unitKey (t : ElementTable) (r : ElementRecord) : UnitKey :=
  (t.units[r.unit.toNat]?).getD ⟨⟨0⟩, ⟨0⟩⟩

def assemble (b : PackageBuilder) : Except Fault PackageIndex := do
  let table := b.tables.elements.assignIds
  let ordered := table.ordered
  let units ← b.units.mapM (·.assemble table)
  return {
    libraryUris := ordered.map fun r => (unitKey table r).library.index
    unitUris := ordered.map fun r => (unitKey table r).unit.index
    elementUnits := ordered.map (·.unit)
    elementOffsets := ordered.map (·.offset)
    uris := b.tables.uris.uris
    units }

def assemblyLog : Except Fault PackageIndex → List LogEvent
  | .ok p => [.assembled p.units.length p.elementCount p.uris.length]
  | .error _ => []

/-- Records units up to the first that fails. -/
def indexAll (b : PackageBuilder) : List (Node .compilationUnit) → PackageBuilder × Option Fault
  | [] => (b, none)
  | unit :: rest =>
    match b.indexUnit unit with
    | .error fault => (b, some fault)
    | .ok b => b.indexAll rest

end PackageBuilder

def indexUnits (model : Model) (options : Options) (units : List (Node .compilationUnit)) :
    Except Fault PackageIndex × List LogEvent :=
  match PackageBuilder.indexAll { model, options } units with
  | (b, some fault) => (.error fault, b.log)
  | (b, none) =>
    let result := b.assemble
    (result, b.log ++ .indexedUnits units.length :: PackageBuilder.assemblyLog result)

def unitsOfJson (j : Json) : Except Fault (List (Node .compilationUnit)) :=
  match Tree.decode? (.many (.node .compilationUnit)) j with
  | none => .error .malformed
  | some units => .ok units.toList

def readUnits (text : String) : Except Fault (List (Node .compilationUnit)) :=
  match Json.parse? text with
  | none => .error .malformed
  | some j => unitsOfJson j

end UsageIndex
