import UsageIndex.Json.Decode

/-!
What an index records besides uses that are written out.
-/

set_option autoImplicit false

namespace UsageIndex

structure Options where
  /-- Whether top-level declarations are recorded. -/
  recordDefinitions : Bool := false
  /-- Whether a class without an extends clause extends the supertype of its element. -/
  indexImplicitSupertypes : Bool := true
  deriving DecidableEq, Repr

namespace Options

def default : Options := {}

def withDefinitions : Options := { recordDefinitions := true }

def implicitSupertypes (o : Options) (enabled : Bool) : Options :=
  { o with indexImplicitSupertypes := enabled }

def fieldNames : List String := ["record_definitions", "index_implicit_supertypes"]

def encode (o : Options) : Json :=
  .record [("record_definitions", .bool o.recordDefinitions),
    ("index_implicit_supertypes", .bool o.indexImplicitSupertypes)]

def decode? (j : Json) : Option Options := do
  let [definitions, supertypes] ← j.fields? fieldNames | none
  return {
    recordDefinitions := ← definitions.orDefault default.recordDefinitions Json.bool?
    indexImplicitSupertypes := ←
      supertypes.orDefault default.indexImplicitSupertypes Json.bool? }

end Options

end UsageIndex
