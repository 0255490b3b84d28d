import UsageIndex.Json.Decode

/-!
The ways in which a place in the source can use an element.
-/

set_option autoImplicit false

namespace UsageIndex

inductive RelationKind where
  /-- The superclass of a class, named or implied. -/
  | isExtendedBy
  | isMixedInBy
  | isImplementedBy
  /-- A method, function or operator that is called. -/
  | isInvokedBy
  /-- Any other mention. -/
  | isReferencedBy
  /-- The declaration of a top-level element. -/
  | isDefinedBy
  deriving DecidableEq, Repr

namespace RelationKind

def name : RelationKind → String
  | .isExtendedBy => "is_extended_by"
  | .isMixedInBy => "is_mixed_in_by"
  | .isImplementedBy => "is_implemented_by"
  | .isInvokedBy => "is_invoked_by"
  | .isReferencedBy => "is_referenced_by"
  | .isDefinedBy => "is_defined_by"

def all : List RelationKind :=
  [.isExtendedBy, .isMixedInBy, .isImplementedBy, .isInvokedBy, .isReferencedBy, .isDefinedBy]

def encode (k : RelationKind) : Json := .string k.name

def decode? (j : Json) : Option RelationKind := do
  let tag ← j.bareVariant?
  all.find? (·.name == tag)

end RelationKind

end UsageIndex
