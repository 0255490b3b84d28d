import UsageIndex.Tree.Parts

/-!
Nodes made from their parts, for trees that are put together by hand.
-/

set_option autoImplicit false

namespace UsageIndex.Tree

def ofElement? : Option ElementId → Tree (.optional .element)
  | none => .absent
  | some e => .present (.element e)

def simpleIdentifier (i : Identifier) : Node .simpleIdentifier :=
  .node _ (.slot (.token i.token) (.slot (ofElement? i.element) .done))

def declaredIdentifier (i : Identifier) : Node .declaredIdentifier :=
  .node _ (.slot (.token i.token) (.slot (ofElement? i.element) .done))

def stringLiteral (t : Token) : Node .stringLiteral := .node _ (.slot (.token t) .done)

def argumentList (left : UInt32) (arguments : List (Node .expression)) (right : UInt32) :
    Node .argumentList :=
  .node _ (.slot (.token ⟨"(", left⟩) (.slot (ofList arguments)
    (.slot (.token ⟨")", right⟩) .done)))

def simpleType (i : Identifier) : Node .typeName :=
  .node _ (.slot (.here (simpleIdentifier i)) (.slot .nil (.slot .absent .done)))

def withTypeArguments : Node .typeName → List (Node .typeName) → UInt32 → Node .typeName
  | .node _ (.slot name _), arguments, right =>
    .node _ (.slot name (.slot (ofList arguments) (.slot (.present (.token ⟨">", right⟩)) .done)))

def unnamedConstructor (type : Node .typeName) (target : Option ElementId) :
    Node .constructorName :=
  .node _ (.slot type (.slot .absent (.slot .absent (.slot (ofElement? target) .done))))

def namedConstructor (type : Node .typeName) (period : Token) (name : Node .simpleIdentifier)
    (target : Option ElementId) : Node .constructorName :=
  .node _ (.slot type (.slot (.present (.token period)) (.slot (.present name)
    (.slot (ofElement? target) .done))))

def classDeclaration (keyword : Token) (name : Node .declaredIdentifier) :
    Node .classDeclaration :=
  .node _ (.slot .absent (.slot (.token keyword) (.slot name (.slot .nil (.slot .absent
    (.slot .absent (.slot .absent (.slot .nil .done))))))))

def formalParameterList (parameters : List (Node .formalParameter)) : Node .formalParameterList :=
  .node _ (.slot (ofList parameters) .done)

def emptyBody : Node .functionBody := .node _ (.there (.there (.here .nothing)))

def emptyBlock : Node .block := .node _ (.slot .nil .done)

def emptyUnit (e : ElementId) : Node .compilationUnit :=
  .node _ (.slot (.element e) (.slot .nil (.slot .nil .done)))

def addDirective : Node .compilationUnit → Node .directive → Node .compilationUnit
  | .node _ (.slot e (.slot directives rest)), d =>
    .node _ (.slot e (.slot (ofList (directives.toList ++ [d])) rest))

def addDeclaration : Node .compilationUnit → Node .compilationUnitMember → Node .compilationUnit
  | .node _ (.slot e (.slot directives (.slot declarations .done))), d =>
    .node _ (.slot e (.slot directives (.slot (ofList (declarations.toList ++ [d])) .done)))

@[simp] theorem reference_simpleIdentifier (i : Identifier) :
    (simpleIdentifier i).reference = i := by
  rcases i with ⟨t, _ | e⟩ <;> rfl

@[simp] theorem declaration_declaredIdentifier (i : Identifier) :
    (declaredIdentifier i).declaration = i := by
  rcases i with ⟨t, _ | e⟩ <;> rfl

@[simp] theorem start_typeMention_simpleType (i : Identifier) :
    (simpleType i).typeMention.start = i.offset := rfl

end UsageIndex.Tree
