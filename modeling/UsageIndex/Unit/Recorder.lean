import UsageIndex.Element.Table
import UsageIndex.Log
import UsageIndex.Unit.Index

/-!
Recording the relations of one compilation unit. A relation whose element cannot be interned
is dropped; the others are kept in order until the elements have their final numbers.
-/

set_option autoImplicit false

namespace UsageIndex

structure Candidate where
  target : ElementId
  kind : RelationKind
  location : Location
  deriving DecidableEq, Repr

/-- A recorded use; the element is known by its handle. -/
structure Relation where
  target : Handle
  kind : RelationKind
  location : Location
  deriving DecidableEq, Repr

structure UnitRecorder where
  key : UnitKey
  relations : List Relation := []
  deriving DecidableEq, Repr

namespace UnitRecorder

def usage (t : ElementTable) (r : Relation) : Except Fault Usage :=
  match t.finalId? r.target with
  | some id => .ok ⟨id, r.kind, r.location⟩
  | none =>
    .error (.internal
      ("element ElementInfoId(" ++ toString r.target.index.toNat ++ ") has no final id"))

/-- The index of the unit: its relations by the numbers of their elements, those of one
element in the order of recording. -/
def assemble (u : UnitRecorder) (t : ElementTable) : Except Fault UnitIndex := do
  let usages ← u.relations.mapM (usage t)
  return .ofUsages u.key.library.index u.key.unit.index
    (usages.mergeSort fun a b => a.element ≤ b.element)

end UnitRecorder

structure Recording where
  tables : Tables
  unit : UnitRecorder
  log : List LogEvent := []
  deriving DecidableEq, Repr

namespace Recording

/-- Interns the element and records its use, and says whether that was possible. -/
def add (r : Recording) (m : Model) (c : Candidate) : Bool × Recording :=
  match (Tables.enter m c.target).runOn r.tables with
  | (.ok h, tables) =>
    (true, {
      tables
      unit := { r.unit with relations := r.unit.relations ++ [⟨h, c.kind, c.location⟩] }
      log := r.log ++ [.recorded c.kind c.target c.location] })
  | (.error fault, tables) =>
    (false, { r with tables, log := r.log ++ [.dropped c.kind c.location.offset fault] })

def addAll (r : Recording) (m : Model) (cs : List Candidate) : Recording :=
  cs.foldl (fun r c => if m.isFiltered c.target then r else (r.add m c).2) r

end Recording

end UsageIndex
