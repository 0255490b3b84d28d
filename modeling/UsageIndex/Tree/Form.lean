/-!
The grammar of source trees, as data. A form says what may stand at a place of a tree; each
kind of node has one. Records list their fields in source order, which is the order in which a
tree is walked and written.
-/

set_option autoImplicit false

namespace UsageIndex

inductive NodeKind where
  | compilationUnit
  | directive
  | libraryIdentifier
  | libraryDirective
  | combinator
  | importDirective
  | exportDirective
  | partDirective
  | partOfDirective
  | compilationUnitMember
  | extendsClause
  | withClause
  | implementsClause
  | typeParameter
  | classDeclaration
  | classTypeAlias
  | enumDeclaration
  | functionDeclaration
  | functionTypeAlias
  | variableDeclarationList
  | variableDeclaration
  | classMember
  | constructorDeclaration
  | constructorInitializer
  | constructorFieldInitializer
  | redirectingConstructorInvocation
  | superConstructorInvocation
  | methodDeclaration
  | fieldDeclaration
  | formalParameterList
  | formalParameter
  | simpleFormalParameter
  | fieldFormalParameter
  | defaultFormalParameter
  | functionBody
  | block
  | statement
  | returnStatement
  | ifStatement
  | whileStatement
  | labeledStatement
  | breakStatement
  | continueStatement
  | expression
  /-- An identifier that refers to something. -/
  | simpleIdentifier
  /-- An identifier that names what is being declared. -/
  | declaredIdentifier
  | prefixedIdentifier
  | propertyAccess
  | methodInvocation
  | instanceCreation
  | binaryExpression
  | assignmentExpression
  | prefixExpression
  | postfixExpression
  | indexExpression
  | label
  | namedExpression
  | parenthesizedExpression
  | conditionalExpression
  | literal
  | argumentList
  | stringLiteral
  | typeName
  | constructorName
  deriving DecidableEq, Repr

namespace NodeKind

def name : NodeKind → String
  | .compilationUnit => "compilation_unit"
  | .directive => "directive"
  | .libraryIdentifier => "library_identifier"
  | .libraryDirective => "library_directive"
  | .combinator => "combinator"
  | .importDirective => "import_directive"
  | .exportDirective => "export_directive"
  | .partDirective => "part_directive"
  | .partOfDirective => "part_of_directive"
  | .compilationUnitMember => "compilation_unit_member"
  | .extendsClause => "extends_clause"
  | .withClause => "with_clause"
  | .implementsClause => "implements_clause"
  | .typeParameter => "type_parameter"
  | .classDeclaration => "class_declaration"
  | .classTypeAlias => "class_type_alias"
  | .enumDeclaration => "enum_declaration"
  | .functionDeclaration => "function_declaration"
  | .functionTypeAlias => "function_type_alias"
  | .variableDeclarationList => "variable_declaration_list"
  | .variableDeclaration => "variable_declaration"
  | .classMember => "class_member"
  | .constructorDeclaration => "constructor_declaration"
  | .constructorInitializer => "constructor_initializer"
  | .constructorFieldInitializer => "constructor_field_initializer"
  | .redirectingConstructorInvocation => "redirecting_constructor_invocation"
  | .superConstructorInvocation => "super_constructor_invocation"
  | .methodDeclaration => "method_declaration"
  | .fieldDeclaration => "field_declaration"
  | .formalParameterList => "formal_parameter_list"
  | .formalParameter => "formal_parameter"
  | .simpleFormalParameter => "simple_formal_parameter"
  | .fieldFormalParameter => "field_formal_parameter"
  | .defaultFormalParameter => "default_formal_parameter"
  | .functionBody => "function_body"
  | .block => "block"
  | .statement => "statement"
  | .returnStatement => "return_statement"
  | .ifStatement => "if_statement"
  | .whileStatement => "while_statement"
  | .labeledStatement => "labeled_statement"
  | .breakStatement => "break_statement"
  | .continueStatement => "continue_statement"
  | .expression => "expression"
  | .simpleIdentifier => "simple_identifier"
  | .declaredIdentifier => "declared_identifier"
  | .prefixedIdentifier => "prefixed_identifier"
  | .propertyAccess => "property_access"
  | .methodInvocation => "method_invocation"
  | .instanceCreation => "instance_creation"
  | .binaryExpression => "binary_expression"
  | .assignmentExpression => "assignment_expression"
  | .prefixExpression => "prefix_expression"
  | .postfixExpression => "postfix_expression"
  | .indexExpression => "index_expression"
  | .label => "label"
  | .namedExpression => "named_expression"
  | .parenthesizedExpression => "parenthesized_expression"
  | .conditionalExpression => "conditional_expression"
  | .literal => "literal"
  | .argumentList => "argument_list"
  | .stringLiteral => "string_literal"
  | .typeName => "type_name"
  | .constructorName => "constructor_name"

def all : List NodeKind :=
  [.compilationUnit, .directive, .libraryIdentifier, .libraryDirective, .combinator,
    .importDirective, .exportDirective, .partDirective, .partOfDirective, .compilationUnitMember,
    .extendsClause, .withClause, .implementsClause, .typeParameter, .classDeclaration,
    .classTypeAlias, .enumDeclaration, .functionDeclaration, .functionTypeAlias,
    .variableDeclarationList, .variableDeclaration, .classMember, .constructorDeclaration,
    .constructorInitializer, .constructorFieldInitializer, .redirectingConstructorInvocation,
    .superConstructorInvocation, .methodDeclaration, .fieldDeclaration, .formalParameterList,
    .formalParameter, .simpleFormalParameter, .fieldFormalParameter, .defaultFormalParameter,
    .functionBody, .block, .statement, .returnStatement, .ifStatement, .whileStatement,
    .labeledStatement, .breakStatement, .continueStatement, .expression, .simpleIdentifier,
    .declaredIdentifier, .prefixedIdentifier, .propertyAccess, .methodInvocation,
    .instanceCreation, .binaryExpression, .assignmentExpression, .prefixExpression,
    .postfixExpression, .indexExpression, .label, .namedExpression, .parenthesizedExpression,
    .conditionalExpression, .literal, .argumentList, .stringLiteral, .typeName, .constructorName]

def ofName? (name : String) : Option NodeKind := all.find? (·.name == name)

end NodeKind

/-- What may stand at a place of a tree. -/
inductive Form where
  | token
  /-- The id of a resolved element. -/
  | element
  | node (kind : NodeKind)
  | optional (f : Form)
  | many (f : Form)
  /-- The content of an alternative that has none. -/
  | nothing
  /-- A record without further fields. -/
  | done
  /-- A record that starts with this field; `omissible` fields may be left out when written. -/
  | slot (name : String) (omissible : Bool) (f rest : Form)
  /-- A choice between no alternatives. -/
  | never
  /-- A choice between this alternative and the rest. -/
  | either (tag : String) (f rest : Form)
  deriving DecidableEq, Repr

structure Field where
  name : String
  form : Form
  omissible : Bool
  deriving DecidableEq, Repr

namespace Field

def one (name : String) (f : Form) : Field := ⟨name, f, false⟩

def opt (name : String) (f : Form) : Field := ⟨name, .optional f, false⟩

/-- A list that must be written even if it is empty. -/
def many (name : String) (f : Form) : Field := ⟨name, .many f, false⟩

/-- A list that need not be written if it is empty. -/
def list (name : String) (f : Form) : Field := ⟨name, .many f, true⟩

end Field

namespace Form

def record : List Field → Form
  | [] => .done
  | f :: fs => .slot f.name f.omissible f.form (record fs)

def choice : List (String × Form) → Form
  | [] => .never
  | (tag, f) :: rest => .either tag f (choice rest)

def fieldNames : Form → List String
  | .slot name _ _ rest => name :: fieldNames rest
  | _ => []

def isChoice : Form → Bool
  | .never | .either _ _ _ => true
  | _ => false

def identifier : Form :=
  .choice [("simple", .node .simpleIdentifier), ("prefixed", .node .prefixedIdentifier)]

end Form

def NodeKind.form : NodeKind → Form
  | .compilationUnit =>
    .record [.one "element" .element, .list "directives" (.node .directive),
      .list "declarations" (.node .compilationUnitMember)]
  | .directive =>
    .choice [("library", .node .libraryDirective), ("import", .node .importDirective),
      ("export", .node .exportDirective), ("part", .node .partDirective),
      ("part_of", .node .partOfDirective)]
  | .libraryIdentifier => .record [.many "components" (.node .simpleIdentifier)]
  | .libraryDirective =>
    .record [.one "keyword" .token, .one "name" (.node .libraryIdentifier),
      .one "semicolon" .token, .opt "element" .element]
  | .combinator => .record [.one "keyword" .token, .many "names" (.node .simpleIdentifier)]
  | .importDirective =>
    .record [.one "keyword" .token, .one "uri" (.node .stringLiteral),
      .opt "uri_element" .element, .opt "element" .element,
      .opt "prefix" (.node .declaredIdentifier), .list "combinators" (.node .combinator),
      .one "semicolon" .token]
  | .exportDirective =>
    .record [.one "keyword" .token, .one "uri" (.node .stringLiteral),
      .opt "uri_element" .element, .opt "element" .element,
      .list "combinators" (.node .combinator), .one "semicolon" .token]
  | .partDirective =>
    .record [.one "keyword" .token, .one "uri" (.node .stringLiteral), .one "semicolon" .token,
      .opt "element" .element]
  | .partOfDirective =>
    .record [.one "keyword" .token, .one "of_keyword" .token,
      .one "library_name" (.node .libraryIdentifier), .one "semicolon" .token,
      .opt "element" .element]
  | .compilationUnitMember =>
    .choice [("class", .node .classDeclaration), ("class_alias", .node .classTypeAlias),
      ("enum", .node .enumDeclaration), ("function", .node .functionDeclaration),
      ("function_type_alias", .node .functionTypeAlias),
      ("top_level_variable", .node .variableDeclarationList)]
  | .extendsClause => .record [.one "keyword" .token, .one "superclass" (.node .typeName)]
  | .withClause => .record [.one "keyword" .token, .many "mixins" (.node .typeName)]
  | .implementsClause => .record [.one "keyword" .token, .many "interfaces" (.node .typeName)]
  | .typeParameter =>
    .record [.one "name" (.node .declaredIdentifier), .opt "bound" (.node .typeName)]
  | .classDeclaration =>
    .record [.opt "abstract_keyword" .token, .one "class_keyword" .token,
      .one "name" (.node .declaredIdentifier), .list "type_parameters" (.node .typeParameter),
      .opt "extends_clause" (.node .extendsClause), .opt "with_clause" (.node .withClause),
      .opt "implements_clause" (.node .implementsClause), .list "members" (.node .classMember)]
  | .classTypeAlias =>
    .record [.one "keyword" .token, .one "name" (.node .declaredIdentifier),
      .list "type_parameters" (.node .typeParameter), .one "equals" .token,
      .one "superclass" (.node .typeName), .one "with_clause" (.node .withClause),
      .opt "implements_clause" (.node .implementsClause), .one "semicolon" .token]
  | .enumDeclaration =>
    .record [.one "keyword" .token, .one "name" (.node .declaredIdentifier),
      .list "constants" (.node .declaredIdentifier)]
  | .functionDeclaration =>
    .record [.opt "return_type" (.node .typeName), .opt "property_keyword" .token,
      .one "name" (.node .declaredIdentifier), .list "type_parameters" (.node .typeParameter),
      .one "parameters" (.node .formalParameterList), .one "body" (.node .functionBody)]
  | .functionTypeAlias =>
    .record [.one "keyword" .token, .opt "return_type" (.node .typeName),
      .one "name" (.node .declaredIdentifier), .list "type_parameters" (.node .typeParameter),
      .one "parameters" (.node .formalParameterList), .one "semicolon" .token]
  | .variableDeclarationList =>
    .record [.opt "keyword" .token, .opt "type_name" (.node .typeName),
      .many "variables" (.node .variableDeclaration)]
  | .variableDeclaration =>
    .record [.one "name" (.node .declaredIdentifier), .opt "initializer" (.node .expression)]
  | .classMember =>
    .choice [("constructor", .node .constructorDeclaration), ("method", .node .methodDeclaration),
      ("field", .node .fieldDeclaration)]
  | .constructorDeclaration =>
    .record [.opt "factory_keyword" .token, .one "return_type" (.node .declaredIdentifier),
      .opt "period" .token, .opt "name" (.node .declaredIdentifier), .opt "element" .element,
      .one "parameters" (.node .formalParameterList),
      .list "initializers" (.node .constructorInitializer),
      .opt "redirected_constructor" (.node .constructorName), .one "body" (.node .functionBody)]
  | .constructorInitializer =>
    .choice [("field", .node .constructorFieldInitializer),
      ("redirecting", .node .redirectingConstructorInvocation),
      ("super", .node .superConstructorInvocation)]
  | .constructorFieldInitializer =>
    .record [.opt "this_keyword" .token, .one "field_name" (.node .simpleIdentifier),
      .one "equals" .token, .one "expression" (.node .expression)]
  | .redirectingConstructorInvocation =>
    .record [.one "this_keyword" .token, .opt "period" .token,
      .opt "constructor_name" (.node .simpleIdentifier), .one "arguments" (.node .argumentList),
      .opt "static_element" .element]
  | .superConstructorInvocation =>
    .record [.one "super_keyword" .token, .opt "period" .token,
      .opt "constructor_name" (.node .simpleIdentifier), .one "arguments" (.node .argumentList),
      .opt "static_element" .element]
  | .methodDeclaration =>
    .record [.opt "modifier_keyword" .token, .opt "return_type" (.node .typeName),
      .opt "property_keyword" .token, .opt "operator_keyword" .token,
      .one "name" (.node .declaredIdentifier), .list "type_parameters" (.node .typeParameter),
      .opt "parameters" (.node .formalParameterList), .one "body" (.node .functionBody)]
  | .fieldDeclaration =>
    .record [.opt "static_keyword" .token, .one "fields" (.node .variableDeclarationList)]
  | .formalParameterList => .record [.list "parameters" (.node .formalParameter)]
  | .formalParameter =>
    .choice [("simple", .node .simpleFormalParameter),
      ("field_formal", .node .fieldFormalParameter), ("default", .node .defaultFormalParameter)]
  | .simpleFormalParameter =>
    .record [.opt "type_name" (.node .typeName), .one "identifier" (.node .declaredIdentifier)]
  | .fieldFormalParameter =>
    .record [.opt "type_name" (.node .typeName), .one "this_keyword" .token,
      .one "period" .token, .one "identifier" (.node .declaredIdentifier)]
  | .defaultFormalParameter =>
    .record [.one "parameter" (.node .formalParameter), .opt "separator" .token,
      .opt "default_value" (.node .expression)]
  | .functionBody =>
    .choice [("block", .node .block), ("expression", .node .expression), ("empty", .nothing)]
  | .block => .record [.list "statements" (.node .statement)]
  | .statement =>
    .choice [("block", .node .block), ("expression", .node .expression),
      ("variable_declaration", .node .variableDeclarationList),
      ("function_declaration", .node .functionDeclaration), ("return", .node .returnStatement),
      ("if", .node .ifStatement), ("while", .node .whileStatement),
      ("labeled", .node .labeledStatement), ("break", .node .breakStatement),
      ("continue", .node .continueStatement)]
  | .returnStatement => .record [.one "keyword" .token, .opt "expression" (.node .expression)]
  | .ifStatement =>
    .record [.one "condition" (.node .expression), .one "then_statement" (.node .statement),
      .opt "else_statement" (.node .statement)]
  | .whileStatement =>
    .record [.one "condition" (.node .expression), .one "body" (.node .statement)]
  | .labeledStatement =>
    .record [.many "labels" (.node .declaredIdentifier), .one "statement" (.node .statement)]
  | .breakStatement => .record [.one "keyword" .token, .opt "label" (.node .simpleIdentifier)]
  | .continueStatement => .record [.one "keyword" .token, .opt "label" (.node .simpleIdentifier)]
  | .expression =>
    .choice [("identifier", .node .simpleIdentifier),
      ("prefixed_identifier", .node .prefixedIdentifier),
      ("property_access", .node .propertyAccess), ("method_invocation", .node .methodInvocation),
      ("instance_creation", .node .instanceCreation), ("binary", .node .binaryExpression),
      ("assignment", .node .assignmentExpression), ("prefix", .node .prefixExpression),
      ("postfix", .node .postfixExpression), ("index", .node .indexExpression),
      ("named", .node .namedExpression), ("parenthesized", .node .parenthesizedExpression),
      ("conditional", .node .conditionalExpression), ("literal", .node .literal),
      ("this", .token), ("super", .token)]
  | .simpleIdentifier => .record [.one "token" .token, .opt "static_element" .element]
  | .declaredIdentifier => .record [.one "token" .token, .opt "static_element" .element]
  | .prefixedIdentifier =>
    .record [.one "prefix" (.node .simpleIdentifier), .one "period" .token,
      .one "identifier" (.node .simpleIdentifier)]
  | .propertyAccess =>
    .record [.one "target" (.node .expression), .one "operator" .token,
      .one "property_name" (.node .simpleIdentifier)]
  | .methodInvocation =>
    .record [.opt "target" (.node .expression), .opt "operator" .token,
      .one "method_name" (.node .simpleIdentifier), .one "arguments" (.node .argumentList)]
  | .instanceCreation =>
    .record [.opt "keyword" .token, .one "constructor_name" (.node .constructorName),
      .one "arguments" (.node .argumentList)]
  | .binaryExpression =>
    .record [.one "left" (.node .expression), .one "operator" .token,
      .one "right" (.node .expression), .opt "static_element" .element]
  | .assignmentExpression =>
    .record [.one "left" (.node .expression), .one "operator" .token,
      .one "right" (.node .expression), .opt "static_element" .element]
  | .prefixExpression =>
    .record [.one "operator" .token, .one "operand" (.node .expression),
      .opt "static_element" .element]
  | .postfixExpression =>
    .record [.one "operand" (.node .expression), .one "operator" .token,
      .opt "static_element" .element]
  | .indexExpression =>
    .record [.one "target" (.node .expression), .one "left_bracket" .token,
      .one "index" (.node .expression), .one "right_bracket" .token,
      .opt "static_element" .element]
  | .label => .record [.one "label" (.node .simpleIdentifier), .one "colon" .token]
  | .namedExpression =>
    .record [.one "name" (.node .label), .one "expression" (.node .expression)]
  | .parenthesizedExpression =>
    .record [.one "left_paren" .token, .one "expression" (.node .expression),
      .one "right_paren" .token]
  | .conditionalExpression =>
    .record [.one "condition" (.node .expression), .one "question" .token,
      .one "then_expression" (.node .expression), .one "colon" .token,
      .one "else_expression" (.node .expression)]
  | .literal =>
    .choice [("integer", .token), ("double", .token), ("boolean", .token), ("null", .token),
      ("string", .node .stringLiteral)]
  | .argumentList =>
    .record [.one "left_paren" .token, .list "arguments" (.node .expression),
      .one "right_paren" .token]
  | .stringLiteral => .record [.one "token" .token]
  | .typeName =>
    .record [.one "name" .identifier, .list "type_arguments" (.node .typeName),
      ⟨"right_bracket", .optional .token, true⟩]
  | .constructorName =>
    .record [.one "type_name" (.node .typeName), .opt "period" .token,
      .opt "name" (.node .simpleIdentifier), .opt "static_element" .element]

end UsageIndex
