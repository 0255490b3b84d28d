import UsageIndex.Element.Basic

/-!
What can go wrong while an index is built or read.
-/

set_option autoImplicit false

namespace UsageIndex

inductive Fault where
  /-- No compilation unit or library with one encloses the element. -/
  | unlinkedElement (element : ElementId) (name : String)
  | unknownElement (element : ElementId)
  /-- A library or compilation unit does not say where it comes from. -/
  | missingSourceUri (element : ElementId)
  /-- A written index has another version of the layout. -/
  | unsupportedSchemaVersion (found expected : UInt32)
  | internal (message : String)
  /-- A text is not JSON, or not the JSON of the wanted type. -/
  | malformed
  deriving DecidableEq, Repr

namespace Fault

/-- Whether only the relation that met the fault is lost. -/
def isRecoverable : Fault → Bool
  | .unlinkedElement _ _ | .unknownElement _ => true
  | _ => false

def message : Fault → String
  | .unlinkedElement element name =>
    "element " ++ element.label ++ " ('" ++ name ++ "') is not linked into any compilation unit"
  | .unknownElement element => "unknown element " ++ element.label
  | .missingSourceUri element => "element " ++ element.label ++ " has no source uri"
  | .unsupportedSchemaVersion found expected =>
    "unsupported index schema version " ++ toString found.toNat
      ++ " (expected " ++ toString expected.toNat ++ ")"
  | .internal message => "internal error: " ++ message
  -- what the reader of JSON has to say stands behind this in the text of an error
  | .malformed => "serialization error"

end Fault

end UsageIndex
