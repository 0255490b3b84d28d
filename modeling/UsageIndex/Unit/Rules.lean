import UsageIndex.Options
import UsageIndex.Tree.Parts
import UsageIndex.Unit.Recorder

/-!
Which uses of elements a node shows. Constructs such as clauses, calls and operators have
rules of their own and speak for some of the identifiers in them; those identifiers are not
references on top of that.
-/

set_option autoImplicit false

namespace UsageIndex

namespace Candidate

def of (target : Option ElementId) (kind : RelationKind) (location : Location) :
    List Candidate :=
  (target.map fun e => ⟨e, kind, location⟩).toList

def ofIdentifier (kind : RelationKind) (i : Identifier) : List Candidate :=
  of i.element kind i.location

def ofType (kind : RelationKind) (t : TypeMention) : List Candidate :=
  of t.name.element kind t.location

def ofOperation (o : Operation) : List Candidate :=
  of o.method .isInvokedBy o.operator.location

def ofConstructor (m : Model) (c : ConstructorMention) : List Candidate :=
  of (c.target.map m.redirectTarget) .isReferencedBy c.location

/-- The clauses of a class in source order; `implied` stands for an extends clause. -/
def ofHeader (implied : List Candidate) (h : ClassHeader) : List Candidate :=
  (h.superclass.map (ofType .isExtendedBy)).getD implied
    ++ h.mixins.flatMap (ofType .isMixedInBy)
    ++ h.interfaces.flatMap (ofType .isImplementedBy)

/-- The unit behind the URI, then the library of the directive's element. -/
def ofLink (m : Model) (d : LinkDirective) : List Candidate :=
  of d.target .isReferencedBy d.uri.location
    ++ of ((d.element.bind m.get?).bind Element.library) .isReferencedBy d.uri.location

def ofDirective (d : Directive) : List Candidate := of d.element .isReferencedBy d.location

end Candidate

def ElementKind.isReferenceable : ElementKind → Bool
  | .classType | .enumType | .function | .functionTypeAlias | .label | .method | .getter
  | .setter | .field | .topLevelVariable | .typeParameter | .parameter .named => true
  | _ => false

namespace Tree

def impliedSupertype (m : Model) (o : Options) (name : Identifier) : List Candidate :=
  if o.indexImplicitSupertypes then
    Candidate.of ((name.element.bind m.get?).bind Element.supertype) .isExtendedBy name.location
  else []

/-- The uses that a construct shows by its own rule. -/
def constructUses (m : Model) (o : Options) {k : NodeKind} (n : Node k) : List Candidate :=
  match k, n with
  | .compilationUnitMember, n =>
    if o.recordDefinitions then n.declaredNames.flatMap (Candidate.ofIdentifier .isDefinedBy)
    else []
  | .classDeclaration, n =>
    Candidate.ofHeader (impliedSupertype m o n.classHeader.name) n.classHeader
  | .classTypeAlias, n => Candidate.ofHeader [] n.aliasHeader
  | .fieldFormalParameter, n =>
    Candidate.of ((n.fieldFormal.parameter.element.bind m.get?).bind Element.field)
      .isReferencedBy n.fieldFormal.location
  | .constructorFieldInitializer, n => Candidate.ofIdentifier .isReferencedBy n.initializedField
  | .redirectingConstructorInvocation, n => Candidate.ofConstructor m n.redirection
  | .superConstructorInvocation, n => Candidate.ofConstructor m n.superCall
  | .importDirective, n => Candidate.ofLink m n.importDirective
  | .exportDirective, n => Candidate.ofLink m n.exportDirective
  | .partDirective, n => Candidate.ofDirective n.partDirective
  | .partOfDirective, n => Candidate.ofDirective n.partOfDirective
  | .binaryExpression, n => Candidate.ofOperation n.binaryOperation
  | .assignmentExpression, n => Candidate.ofOperation n.assignmentOperation
  | .prefixExpression, n => Candidate.ofOperation n.prefixOperation
  | .postfixExpression, n => Candidate.ofOperation n.postfixOperation
  | .indexExpression, n => Candidate.ofOperation n.indexOperation
  | .methodInvocation, n => Candidate.ofIdentifier .isInvokedBy n.methodName
  | .constructorName, n => Candidate.ofConstructor m n.constructorMention
  | _, _ => []

/-- The identifiers that a construct speaks for. -/
def claims {k : NodeKind} (n : Node k) : List Identifier :=
  match k, n with
  | .classDeclaration, n => headerNames n.classHeader
  | .classTypeAlias, n => headerNames n.aliasHeader
  | .constructorFieldInitializer, n => [n.initializedField]
  | .redirectingConstructorInvocation, n => n.redirection.givenName.toList
  | .superConstructorInvocation, n => n.superCall.givenName.toList
  | .methodInvocation, n => [n.methodName]
  | .constructorName, n => n.constructedType.name :: n.constructorMention.givenName.toList
  | _, _ => []
where
  headerNames (h : ClassHeader) : List Identifier :=
    (h.superclass.toList ++ h.mixins ++ h.interfaces).map (·.name)

def referenceUses (m : Model) (n : Node .simpleIdentifier) : List Candidate :=
  if (n.reference.element.bind m.get?).any (·.kind.isReferenceable) then
    Candidate.ofIdentifier .isReferencedBy n.reference
  else []

end Tree

end UsageIndex
