import UsageIndex.Tree.Basic

/-!
The parts of nodes that matter for an index: identifiers with the elements they resolve to,
and the locations of types, parameters, directives and constructor calls.
-/

set_option autoImplicit false

namespace UsageIndex

structure Identifier where
  token : Token
  element : Option ElementId
  deriving DecidableEq, Repr

namespace Identifier

def name (i : Identifier) : String := i.token.lexeme

def offset (i : Identifier) : UInt32 := i.token.offset

def stop (i : Identifier) : UInt32 := i.token.stop

def location (i : Identifier) : Location := i.token.location

end Identifier

structure TypeMention where
  /-- The last identifier of the name, which resolves to the type. -/
  name : Identifier
  /-- The offset of the name, its import prefix included. -/
  start : UInt32
  /-- The offset behind the type, its arguments included. -/
  stop : UInt32
  deriving DecidableEq, Repr

/-- The name without the type arguments. -/
def TypeMention.location (t : TypeMention) : Location := .between t.start t.name.stop

structure ClassHeader where
  name : Identifier
  superclass : Option TypeMention
  mixins : List TypeMention
  interfaces : List TypeMention
  deriving DecidableEq, Repr

structure FieldFormal where
  parameter : Identifier
  start : UInt32
  deriving DecidableEq, Repr

def FieldFormal.location (p : FieldFormal) : Location := .between p.start p.parameter.stop

structure Directive where
  keyword : Token
  semicolon : Token
  element : Option ElementId
  deriving DecidableEq, Repr

def Directive.location (d : Directive) : Location := .between d.keyword.offset d.semicolon.stop

structure LinkDirective extends Directive where
  uri : Token
  /-- The compilation unit behind the URI. -/
  target : Option ElementId
  deriving DecidableEq, Repr

structure ConstructorMention where
  /-- The offset behind the keyword or type. -/
  anchor : UInt32
  period : Option Token
  name : Option Identifier
  target : Option ElementId
  deriving DecidableEq, Repr

namespace ConstructorMention

/-- The name, where it stands behind a period. -/
def givenName (c : ConstructorMention) : Option Identifier :=
  match c.period with
  | none => none
  | some _ => c.name

/-- A named constructor is located from the period through the name, an unnamed one at the
empty stretch behind the keyword or type. -/
def location (c : ConstructorMention) : Location :=
  match c.period, c.name with
  | some period, some name => .between period.offset name.stop
  | _, _ => ⟨c.anchor, 0⟩

end ConstructorMention

structure Operation where
  operator : Token
  method : Option ElementId
  deriving DecidableEq, Repr

namespace Tree

def toToken? (t : Tree (.optional .token)) : Option Token := t.toOption.map toToken

def toElement? (t : Tree (.optional .element)) : Option ElementId := t.toOption.map toElement

def reference : Node .simpleIdentifier → Identifier
  | .node _ (.slot t (.slot e .done)) => ⟨t.toToken, e.toElement?⟩

def declaration : Node .declaredIdentifier → Identifier
  | .node _ (.slot t (.slot e .done)) => ⟨t.toToken, e.toElement?⟩

def lastIdentifier : Tree .identifier → Identifier
  | .here simple => simple.reference
  | .there (.here (.node _ (.slot _ (.slot _ (.slot identifier .done))))) => identifier.reference

def firstIdentifier : Tree .identifier → Identifier
  | .here simple => simple.reference
  | .there (.here (.node _ (.slot importPrefix _))) => importPrefix.reference

def typeMention : Node .typeName → TypeMention
  | .node _ (.slot name (.slot _ (.slot rightBracket .done))) =>
    { name := name.lastIdentifier
      start := name.firstIdentifier.offset
      stop := (rightBracket.toToken?.map Token.stop).getD name.lastIdentifier.stop }

def mixins : Node .withClause → List TypeMention
  | .node _ (.slot _ (.slot types .done)) => types.toList.map typeMention

def interfaces : Node .implementsClause → List TypeMention
  | .node _ (.slot _ (.slot types .done)) => types.toList.map typeMention

def superclass : Node .extendsClause → TypeMention
  | .node _ (.slot _ (.slot type .done)) => type.typeMention

def classHeader : Node .classDeclaration → ClassHeader
  | .node _ (.slot _ (.slot _ (.slot name (.slot _ (.slot extending (.slot mixing
      (.slot implementing _))))))) =>
    { name := name.declaration
      superclass := extending.toOption.map superclass
      mixins := (mixing.toOption.map mixins).getD []
      interfaces := (implementing.toOption.map interfaces).getD [] }

def aliasHeader : Node .classTypeAlias → ClassHeader
  | .node _ (.slot _ (.slot name (.slot _ (.slot _ (.slot type (.slot mixing
      (.slot implementing _))))))) =>
    { name := name.declaration
      superclass := some type.typeMention
      mixins := mixing.mixins
      interfaces := (implementing.toOption.map interfaces).getD [] }

def variableName : Node .variableDeclaration → Identifier
  | .node _ (.slot name _) => name.declaration

def variableNames : Node .variableDeclarationList → List Identifier
  | .node _ (.slot _ (.slot _ (.slot declared .done))) => declared.toList.map variableName

def enumName : Node .enumDeclaration → Identifier
  | .node _ (.slot _ (.slot name _)) => name.declaration

def functionName : Node .functionDeclaration → Identifier
  | .node _ (.slot _ (.slot _ (.slot name _))) => name.declaration

def functionTypeName : Node .functionTypeAlias → Identifier
  | .node _ (.slot _ (.slot _ (.slot name _))) => name.declaration

def declaredNames : Node .compilationUnitMember → List Identifier
  | .node _ (.here declared) => [declared.classHeader.name]
  | .node _ (.there (.here declared)) => [declared.aliasHeader.name]
  | .node _ (.there (.there (.here declared))) => [declared.enumName]
  | .node _ (.there (.there (.there (.here declared)))) => [declared.functionName]
  | .node _ (.there (.there (.there (.there (.here declared))))) => [declared.functionTypeName]
  | .node _ (.there (.there (.there (.there (.there (.here declared)))))) =>
    declared.variableNames

def fieldFormal : Node .fieldFormalParameter → FieldFormal
  | .node _ (.slot type (.slot this (.slot _ (.slot parameter .done)))) =>
    { parameter := parameter.declaration
      start := (type.toOption.map fun t => t.typeMention.start).getD this.toToken.offset }

def initializedField : Node .constructorFieldInitializer → Identifier
  | .node _ (.slot _ (.slot name _)) => name.reference

def redirection : Node .redirectingConstructorInvocation → ConstructorMention
  | .node _ (.slot keyword (.slot period (.slot name (.slot _ (.slot target .done))))) =>
    { anchor := keyword.toToken.stop
      period := period.toToken?
      name := name.toOption.map reference
      target := target.toElement? }

def superCall : Node .superConstructorInvocation → ConstructorMention
  | .node _ (.slot keyword (.slot period (.slot name (.slot _ (.slot target .done))))) =>
    { anchor := keyword.toToken.stop
      period := period.toToken?
      name := name.toOption.map reference
      target := target.toElement? }

def constructedType : Node .constructorName → TypeMention
  | .node _ (.slot type _) => type.typeMention

def constructorMention : Node .constructorName → ConstructorMention
  | .node _ (.slot type (.slot period (.slot name (.slot target .done)))) =>
    { anchor := type.typeMention.stop
      period := period.toToken?
      name := name.toOption.map reference
      target := target.toElement? }

def unitElement : Node .compilationUnit → ElementId
  | .node _ (.slot e _) => e.toElement

def stringToken : Node .stringLiteral → Token
  | .node _ (.slot t .done) => t.toToken

def libraryDirective : Node .libraryDirective → Directive
  | .node _ (.slot keyword (.slot _ (.slot semicolon (.slot e .done)))) =>
    ⟨keyword.toToken, semicolon.toToken, e.toElement?⟩

def importDirective : Node .importDirective → LinkDirective
  | .node _ (.slot keyword (.slot uri (.slot target (.slot e (.slot _ (.slot _
      (.slot semicolon .done))))))) =>
    { keyword := keyword.toToken, semicolon := semicolon.toToken, element := e.toElement?,
      uri := uri.stringToken, target := target.toElement? }

def exportDirective : Node .exportDirective → LinkDirective
  | .node _ (.slot keyword (.slot uri (.slot target (.slot e (.slot _
      (.slot semicolon .done)))))) =>
    { keyword := keyword.toToken, semicolon := semicolon.toToken, element := e.toElement?,
      uri := uri.stringToken, target := target.toElement? }

def partDirective : Node .partDirective → Directive
  | .node _ (.slot keyword (.slot _ (.slot semicolon (.slot e .done)))) =>
    ⟨keyword.toToken, semicolon.toToken, e.toElement?⟩

def partOfDirective : Node .partOfDirective → Directive
  | .node _ (.slot keyword (.slot _ (.slot _ (.slot semicolon (.slot e .done))))) =>
    ⟨keyword.toToken, semicolon.toToken, e.toElement?⟩

def binaryOperation : Node .binaryExpression → Operation
  | .node _ (.slot _ (.slot operator (.slot _ (.slot method .done)))) =>
    ⟨operator.toToken, method.toElement?⟩

def assignmentOperation : Node .assignmentExpression → Operation
  | .node _ (.slot _ (.slot operator (.slot _ (.slot method .done)))) =>
    ⟨operator.toToken, method.toElement?⟩

def prefixOperation : Node .prefixExpression → Operation
  | .node _ (.slot operator (.slot _ (.slot method .done))) =>
    ⟨operator.toToken, method.toElement?⟩

def postfixOperation : Node .postfixExpression → Operation
  | .node _ (.slot _ (.slot operator (.slot method .done))) =>
    ⟨operator.toToken, method.toElement?⟩

/-- The left bracket stands for the operator. -/
def indexOperation : Node .indexExpression → Operation
  | .node _ (.slot _ (.slot bracket (.slot _ (.slot _ (.slot method .done))))) =>
    ⟨bracket.toToken, method.toElement?⟩

def methodName : Node .methodInvocation → Identifier
  | .node _ (.slot _ (.slot _ (.slot name _))) => name.reference

/-- The text between the quotes, or the whole lexeme if it has no quote at either end. -/
def stringValue (n : Node .stringLiteral) : String :=
  unquote n.stringToken.lexeme
where
  isQuote (c : Char) : Bool := c = '\x27' || c = '"'
  unquote (lexeme : String) : String :=
    match lexeme.toList with
    | [] => lexeme
    | first :: rest =>
      match rest.getLast? with
      | none => lexeme
      | some last =>
        if isQuote first && isQuote last then String.ofList rest.dropLast else lexeme

end Tree

end UsageIndex
