import UsageIndex.Fault
import UsageIndex.Relation
import UsageIndex.Source

/-!
What happened while an index was built.
-/

set_option autoImplicit false

namespace UsageIndex

inductive LogLevel where
  | trace
  | debug
  | warn
  deriving DecidableEq, Repr

def LogLevel.name : LogLevel → String
  | .trace => "TRACE"
  | .debug => "DEBUG"
  | .warn => "WARN"

inductive LogEvent where
  | recorded (kind : RelationKind) (element : ElementId) (location : Location)
  /-- The element of a relation could not be interned. -/
  | dropped (kind : RelationKind) (offset : UInt32) (fault : Fault)
  | indexedUnit (uri : String) (relations : Nat)
  | indexedUnits (count : Nat)
  | assembled (units elements uris : Nat)
  deriving DecidableEq, Repr

namespace LogEvent

/-- A relation lost to a fault that is not recoverable deserves a warning. -/
def level : LogEvent → LogLevel
  | .recorded _ _ _ => .trace
  | .dropped _ _ fault => if fault.isRecoverable then .debug else .warn
  | .indexedUnit _ _ => .debug
  | .indexedUnits _ => .debug
  | .assembled _ _ _ => .debug

def message : LogEvent → String
  | .recorded kind element location =>
    kind.name ++ " " ++ element.label ++ " at " ++ toString location.offset.toNat ++ "+"
      ++ toString location.length.toNat
  | .dropped kind offset fault =>
    "dropping " ++ kind.name ++ " relation at " ++ toString offset.toNat ++ ": " ++ fault.message
  | .indexedUnit uri relations =>
    "indexed " ++ uri ++ " (" ++ toString relations ++ " relations)"
  | .indexedUnits count => "indexed " ++ toString count ++ " units"
  | .assembled units elements uris =>
    "assembled package index: " ++ toString units ++ " units, " ++ toString elements
      ++ " elements, " ++ toString uris ++ " uris"

def line (e : LogEvent) : String := e.level.name ++ " " ++ e.message

end LogEvent

end UsageIndex
