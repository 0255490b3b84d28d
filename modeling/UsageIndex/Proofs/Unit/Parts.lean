import UsageIndex.Proofs.Unit.Offers

/-!
Where the parts of constructs stand. Constructs of one kind keep an operator, a name or a type in
one slot, constructs of another kind in another; what a part has to do with the whole is the same
for every slot.
-/

set_option autoImplicit false

namespace UsageIndex

/-- The fields of a node that are for constructors. A name is for a constructor if its place says
so; in a mention like `B.named` this goes for `B`, too. -/
def NodeKind.constructorFields (named : Bool) : NodeKind → List String
  | .constructorName => ["type_name", "name", "static_element"]
  | .redirectingConstructorInvocation | .superConstructorInvocation =>
    ["constructor_name", "static_element"]
  | .constructorDeclaration => ["return_type", "name", "element"]
  | .typeName => if named then ["name"] else []
  | .prefixedIdentifier => if named then ["identifier"] else []
  | .simpleIdentifier | .declaredIdentifier => if named then ["static_element"] else []
  | _ => []

namespace Tree

/-- The elements that a tree mentions outside the places for constructors. These places are
given by `fields` for the fields of a record, all others are like that of the tree. -/
def otherMentions {f : Form} : Tree f → (fields : String → Bool) → (named : Bool) →
    List ElementId
  | .token _, _, _ => []
  | .element e, _, named => if named then [] else [e]
  | .node k body, _, named => body.otherMentions (k.constructorFields named).contains false
  | .absent, _, _ => []
  | .present t, fields, named => t.otherMentions fields named
  | .nil, _, _ => []
  | .cons x xs, fields, named => x.otherMentions fields named ++ xs.otherMentions fields named
  | .nothing, _, _ => []
  | .done, _, _ => []
  | @Tree.slot name _ _ _ x xs, fields, named =>
    x.otherMentions (fun _ => false) (fields name) ++ xs.otherMentions fields named
  | .here t, fields, named => t.otherMentions fields named
  | .there t, fields, named => t.otherMentions fields named

/-- The part stands in the tree, at a place that is for constructors or is not. -/
inductive PartOf {g : Form} (part : Tree g) (place : Bool) :
    {f : Form} → Tree f → (fields : String → Bool) → (named : Bool) → Prop where
  | self : PartOf part place part (fun _ => false) place
  | node {k : NodeKind} {body : Tree k.form} {fields : String → Bool} {named : Bool}
      (h : PartOf part place body (k.constructorFields named).contains false) :
      PartOf part place (.node k body) fields named
  | present {f : Form} {t : Tree f} {fields : String → Bool} {named : Bool}
      (h : PartOf part place t fields named) : PartOf part place (.present t) fields named
  | first {f : Form} {x : Tree f} {xs : Tree (.many f)} {fields : String → Bool} {named : Bool}
      (h : PartOf part place x fields named) : PartOf part place (.cons x xs) fields named
  | later {f : Form} {x : Tree f} {xs : Tree (.many f)} {fields : String → Bool} {named : Bool}
      (h : PartOf part place xs fields named) : PartOf part place (.cons x xs) fields named
  | head {name : String} {omissible : Bool} {f rest : Form} {x : Tree f} {xs : Tree rest}
      {fields : String → Bool} {named : Bool}
      (h : PartOf part place x (fun _ => false) (fields name)) :
      PartOf part place (slot x xs : Tree (.slot name omissible f rest)) fields named
  | tail {name : String} {omissible : Bool} {f rest : Form} {x : Tree f} {xs : Tree rest}
      {fields : String → Bool} {named : Bool} (h : PartOf part place xs fields named) :
      PartOf part place (slot x xs : Tree (.slot name omissible f rest)) fields named
  | here {tag : String} {f rest : Form} {t : Tree f} {fields : String → Bool} {named : Bool}
      (h : PartOf part place t fields named) :
      PartOf part place (here t : Tree (.either tag f rest)) fields named
  | there {tag : String} {f rest : Form} {t : Tree rest} {fields : String → Bool} {named : Bool}
      (h : PartOf part place t fields named) :
      PartOf part place (there t : Tree (.either tag f rest)) fields named

namespace PartOf

variable {f g g' : Form} {part : Tree g} {whole : Tree g'} {t : Tree f} {place place' : Bool}
  {fields : String → Bool} {named : Bool}

theorem trans (h : part.PartOf place whole (fun _ => false) place')
    (hwhole : whole.PartOf place' t fields named) : part.PartOf place t fields named := by
  induction hwhole with
  | self => exact h
  | node _ ih => exact .node ih
  | present _ ih => exact .present ih
  | first _ ih => exact .first ih
  | later _ ih => exact .later ih
  | head _ ih => exact .head ih
  | tail _ ih => exact .tail ih
  | here _ ih => exact .here ih
  | there _ ih => exact .there ih

theorem tokens_subset (h : part.PartOf place t fields named) : part.tokens ⊆ t.tokens := by
  induction h with
  | self => exact List.Subset.refl _
  | first _ ih | head _ ih => exact List.subset_append_of_subset_left _ ih
  | later _ ih | tail _ ih => exact List.subset_append_of_subset_right _ ih
  | node _ ih | present _ ih | here _ ih | there _ ih => exact ih

theorem otherMentions_subset (h : part.PartOf place t fields named) :
    part.otherMentions (fun _ => false) place ⊆ t.otherMentions fields named := by
  induction h with
  | self => exact List.Subset.refl _
  | first _ ih | head _ ih => exact List.subset_append_of_subset_left _ ih
  | later _ ih | tail _ ih => exact List.subset_append_of_subset_right _ ih
  | node _ ih | present _ ih | here _ ih | there _ ih => exact ih

theorem of_mem_toList : {ts : Tree (.many f)} → {x : Tree f} → x ∈ ts.toList →
    x.PartOf false ts (fun _ => false) false
  | .cons y ys, x, h => by
    rcases List.mem_cons.1 h with rfl | hys
    · exact .first .self
    · exact .later (of_mem_toList hys)

end PartOf

def IsPart {f g : Form} (part : Tree g) (t : Tree f) : Prop :=
  ∃ place, part.PartOf place t (fun _ => false) false

/-- The tree holds the token, and mentions the element that the token stands for outside the places
for constructors. -/
structure Holds {f : Form} (t : Tree f) (token : Token) (target : Option ElementId) : Prop where
  token : token ∈ t.tokens
  mention : ∀ e ∈ target, e ∈ t.otherMentions (fun _ => false) false

def HasType {f : Form} (t : Tree f) (type : TypeMention) : Prop :=
  ∃ n : Node .typeName, n.PartOf false t (fun _ => false) false ∧ n.typeMention = type

theorem toToken_mem_tokens : (t : Tree .token) → t.toToken ∈ t.tokens
  | .token _ => List.mem_singleton_self _

theorem mem_of_toElement? {e : ElementId} : {t : Tree (.optional .element)} → e ∈ t.toElement? →
    e ∈ t.otherMentions (fun _ => false) false
  | .present (.element _), h => List.mem_singleton.2 (Option.some.inj h).symm

section Wholes

variable {f g : Form} {t : Tree f} {part : Tree g} {token : Token} {target : Option ElementId}
  {type : TypeMention} {place : Bool}

theorem IsPart.tokens_subset (h : part.IsPart t) : part.tokens ⊆ t.tokens := by
  obtain ⟨place, h⟩ := h
  exact h.tokens_subset

theorem Holds.of_slots {x : Tree .token} {e : Tree (.optional .element)}
    (hx : x.PartOf place t (fun _ => false) false) (he : e.PartOf false t (fun _ => false) false) :
    t.Holds x.toToken e.toElement? where
  token := hx.tokens_subset (toToken_mem_tokens x)
  mention _ h := he.otherMentions_subset (mem_of_toElement? h)

theorem Holds.within (h : part.Holds token target)
    (hpart : part.PartOf false t (fun _ => false) false) : t.Holds token target where
  token := hpart.tokens_subset h.token
  mention e he := hpart.otherMentions_subset (h.mention e he)

theorem HasType.within (h : part.HasType type)
    (hpart : part.PartOf false t (fun _ => false) false) : t.HasType type := by
  obtain ⟨n, hn, rfl⟩ := h
  exact ⟨n, hn.trans hpart, rfl⟩

end Wholes

theorem holds_reference : (n : Node .simpleIdentifier) →
    n.Holds n.reference.token n.reference.element
  | .node _ (.slot _ (.slot _ .done)) =>
    .of_slots (.node (.head .self)) (.node (.tail (.head .self)))

theorem holds_declaration : (n : Node .declaredIdentifier) →
    n.Holds n.declaration.token n.declaration.element
  | .node _ (.slot _ (.slot _ .done)) =>
    .of_slots (.node (.head .self)) (.node (.tail (.head .self)))

theorem holds_lastIdentifier : (t : Tree .identifier) →
    t.Holds t.lastIdentifier.token t.lastIdentifier.element
  | .here n => (holds_reference n).within (.here .self)
  | .there (.here (.node _ (.slot _ (.slot _ (.slot n .done))))) =>
    (holds_reference n).within (.there (.here (.node (.tail (.tail (.head .self))))))

theorem holds_typeMention : (n : Node .typeName) →
    n.Holds n.typeMention.name.token n.typeMention.name.element
  | .node _ (.slot name (.slot _ (.slot _ .done))) =>
    (holds_lastIdentifier name).within (.node (.head .self))

theorem HasType.holds {f : Form} {t : Tree f} {type : TypeMention} (h : t.HasType type) :
    t.Holds type.name.token type.name.element := by
  obtain ⟨n, hn, rfl⟩ := h
  exact (holds_typeMention n).within hn

theorem hasType_of_types {ts : Tree (.many (.node .typeName))} {type : TypeMention}
    (h : type ∈ ts.toList.map typeMention) : ts.HasType type := by
  obtain ⟨n, hn, rfl⟩ := List.mem_map.1 h
  exact ⟨n, .of_mem_toList hn, rfl⟩

theorem hasType_of_mixins : {n : Node .withClause} → {type : TypeMention} → type ∈ n.mixins →
    n.HasType type
  | .node _ (.slot _ (.slot _ .done)), _, h =>
    (hasType_of_types h).within (.node (.tail (.head .self)))

theorem hasType_of_extending : {t : Tree (.optional (.node .extendsClause))} →
    {type : TypeMention} → type ∈ t.toOption.map superclass → t.HasType type
  | .present (.node _ (.slot _ (.slot n .done))), _, h =>
    ⟨n, .present (.node (.tail (.head .self))), Option.some.inj h⟩

theorem hasType_of_mixing : {t : Tree (.optional (.node .withClause))} → {type : TypeMention} →
    type ∈ (t.toOption.map mixins).getD [] → t.HasType type
  | .present _, _, h => (hasType_of_mixins h).within (.present .self)

theorem hasType_of_implementing : {t : Tree (.optional (.node .implementsClause))} →
    {type : TypeMention} → type ∈ (t.toOption.map interfaces).getD [] → t.HasType type
  | .present (.node _ (.slot _ (.slot _ .done))), _, h =>
    (hasType_of_types h).within (.present (.node (.tail (.head .self))))

end Tree

def ClassHeader.Names (h : ClassHeader) (type : TypeMention) : Prop :=
  type ∈ h.superclass ∨ type ∈ h.mixins ∨ type ∈ h.interfaces

namespace Tree

theorem hasType_of_classHeader : {n : Node .classDeclaration} → {type : TypeMention} →
    n.classHeader.Names type → n.HasType type
  | .node _ (.slot _ (.slot _ (.slot _ (.slot _ (.slot _ (.slot _ (.slot _ _))))))), _, h => by
    rcases h with h | h | h
    · exact (hasType_of_extending h).within (.node (.tail (.tail (.tail (.tail (.head .self))))))
    · exact (hasType_of_mixing h).within
        (.node (.tail (.tail (.tail (.tail (.tail (.head .self)))))))
    · exact (hasType_of_implementing h).within
        (.node (.tail (.tail (.tail (.tail (.tail (.tail (.head .self))))))))

theorem hasType_of_aliasHeader : {n : Node .classTypeAlias} → {type : TypeMention} →
    n.aliasHeader.Names type → n.HasType type
  | .node _ (.slot _ (.slot _ (.slot _ (.slot _ (.slot n (.slot _ (.slot _ _))))))), _, h => by
    rcases h with h | h | h
    · exact ⟨n, .node (.tail (.tail (.tail (.tail (.head .self))))), Option.some.inj h⟩
    · exact (hasType_of_mixins h).within
        (.node (.tail (.tail (.tail (.tail (.tail (.head .self)))))))
    · exact (hasType_of_implementing h).within
        (.node (.tail (.tail (.tail (.tail (.tail (.tail (.head .self))))))))

theorem holds_className : (n : Node .classDeclaration) →
    n.Holds n.classHeader.name.token n.classHeader.name.element
  | .node _ (.slot _ (.slot _ (.slot name (.slot _ (.slot _ (.slot _ (.slot _ _))))))) =>
    (holds_declaration name).within (.node (.tail (.tail (.head .self))))

theorem holds_aliasName : (n : Node .classTypeAlias) →
    n.Holds n.aliasHeader.name.token n.aliasHeader.name.element
  | .node _ (.slot _ (.slot name (.slot _ (.slot _ (.slot _ (.slot _ (.slot _ _))))))) =>
    (holds_declaration name).within (.node (.tail (.head .self)))

theorem holds_variableName : (n : Node .variableDeclaration) →
    n.Holds n.variableName.token n.variableName.element
  | .node _ (.slot name _) => (holds_declaration name).within (.node (.head .self))

theorem holds_of_variableNames : {n : Node .variableDeclarationList} → {i : Identifier} →
    i ∈ n.variableNames → n.Holds i.token i.element
  | .node _ (.slot _ (.slot _ (.slot _ .done))), _, h => by
    obtain ⟨declared, hmem, rfl⟩ := List.mem_map.1 h
    exact (holds_variableName declared).within
      ((PartOf.of_mem_toList hmem).trans (.node (.tail (.tail (.head .self)))))

theorem holds_of_declaredNames : {n : Node .compilationUnitMember} → {i : Identifier} →
    i ∈ n.declaredNames → n.Holds i.token i.element
  | .node _ (.here declared), _, h => by
    obtain rfl := List.mem_singleton.1 h
    exact (holds_className declared).within (.node (.here .self))
  | .node _ (.there (.here declared)), _, h => by
    obtain rfl := List.mem_singleton.1 h
    exact (holds_aliasName declared).within (.node (.there (.here .self)))
  | .node _ (.there (.there (.here (.node _ (.slot _ (.slot name _)))))), _, h => by
    obtain rfl := List.mem_singleton.1 h
    exact (holds_declaration name).within
      (.node (.there (.there (.here (.node (.tail (.head .self)))))))
  | .node _ (.there (.there (.there (.here (.node _ (.slot _ (.slot _ (.slot name _)))))))), _,
      h => by
    obtain rfl := List.mem_singleton.1 h
    exact (holds_declaration name).within
      (.node (.there (.there (.there (.here (.node (.tail (.tail (.head .self)))))))))
  | .node _ (.there (.there (.there (.there (.here (.node _
      (.slot _ (.slot _ (.slot name _))))))))), _, h => by
    obtain rfl := List.mem_singleton.1 h
    exact (holds_declaration name).within
      (.node (.there (.there (.there (.there (.here (.node (.tail (.tail (.head .self))))))))))
  | .node _ (.there (.there (.there (.there (.there (.here _)))))), _, h =>
    (holds_of_variableNames h).within (.node (.there (.there (.there (.there (.there (.here
      .self)))))))

theorem holds_initializedField : (n : Node .constructorFieldInitializer) →
    n.Holds n.initializedField.token n.initializedField.element
  | .node _ (.slot _ (.slot name _)) => (holds_reference name).within (.node (.tail (.head .self)))

theorem holds_methodName : (n : Node .methodInvocation) →
    n.Holds n.methodName.token n.methodName.element
  | .node _ (.slot _ (.slot _ (.slot name _))) =>
    (holds_reference name).within (.node (.tail (.tail (.head .self))))

end Tree

namespace SomeNode

def operation? (n : SomeNode) : Option Operation :=
  match n.kind, n.node with
  | .binaryExpression, node => some node.binaryOperation
  | .assignmentExpression, node => some node.assignmentOperation
  | .prefixExpression, node => some node.prefixOperation
  | .postfixExpression, node => some node.postfixOperation
  | .indexExpression, node => some node.indexOperation
  | _, _ => none

def part? (n : SomeNode) : Option Directive :=
  match n.kind, n.node with
  | .partDirective, node => some node.partDirective
  | .partOfDirective, node => some node.partOfDirective
  | _, _ => none

def link? (n : SomeNode) : Option LinkDirective :=
  match n.kind, n.node with
  | .importDirective, node => some node.importDirective
  | .exportDirective, node => some node.exportDirective
  | _, _ => none

def constructorMention? (n : SomeNode) : Option ConstructorMention :=
  match n.kind, n.node with
  | .constructorName, node => some node.constructorMention
  | .redirectingConstructorInvocation, node => some node.redirection
  | .superConstructorInvocation, node => some node.superCall
  | _, _ => none

variable {n : SomeNode}

theorem holds_of_operation? {o : Operation} (h : n.operation? = some o) :
    n.node.Holds o.operator o.method := by
  obtain ⟨n⟩ := n
  rename_i k
  cases k with
  | binaryExpression | assignmentExpression =>
    match n, h with
    | .node _ (.slot _ (.slot _ (.slot _ (.slot _ .done)))), rfl =>
      exact .of_slots (.node (.tail (.head .self))) (.node (.tail (.tail (.tail (.head .self)))))
  | prefixExpression =>
    match n, h with
    | .node _ (.slot _ (.slot _ (.slot _ .done))), rfl =>
      exact .of_slots (.node (.head .self)) (.node (.tail (.tail (.head .self))))
  | postfixExpression =>
    match n, h with
    | .node _ (.slot _ (.slot _ (.slot _ .done))), rfl =>
      exact .of_slots (.node (.tail (.head .self))) (.node (.tail (.tail (.head .self))))
  | indexExpression =>
    match n, h with
    | .node _ (.slot _ (.slot _ (.slot _ (.slot _ (.slot _ .done))))), rfl =>
      exact .of_slots (.node (.tail (.head .self)))
        (.node (.tail (.tail (.tail (.tail (.head .self))))))
  | _ => cases h

theorem holds_of_part? {d : Directive} (h : n.part? = some d) :
    n.node.Holds d.keyword d.element ∧ n.node.Holds d.semicolon d.element := by
  obtain ⟨n⟩ := n
  rename_i k
  cases k with
  | partDirective =>
    match n, h with
    | .node _ (.slot _ (.slot _ (.slot _ (.slot _ .done)))), rfl =>
      exact ⟨.of_slots (.node (.head .self)) (.node (.tail (.tail (.tail (.head .self))))),
        .of_slots (.node (.tail (.tail (.head .self))))
          (.node (.tail (.tail (.tail (.head .self)))))⟩
  | partOfDirective =>
    match n, h with
    | .node _ (.slot _ (.slot _ (.slot _ (.slot _ (.slot _ .done))))), rfl =>
      exact ⟨.of_slots (.node (.head .self)) (.node (.tail (.tail (.tail (.tail (.head .self)))))),
        .of_slots (.node (.tail (.tail (.tail (.head .self)))))
          (.node (.tail (.tail (.tail (.tail (.head .self))))))⟩
  | _ => cases h

theorem holds_of_link? {d : LinkDirective} (h : n.link? = some d) :
    n.node.Holds d.uri d.target := by
  obtain ⟨n⟩ := n
  rename_i k
  cases k with
  | importDirective =>
    match n, h with
    | .node _ (.slot _ (.slot (.node _ (.slot _ .done)) (.slot _ (.slot _ (.slot _ (.slot _
        (.slot _ .done))))))), rfl =>
      exact .of_slots (.node (.tail (.head (.node (.head .self)))))
        (.node (.tail (.tail (.head .self))))
  | exportDirective =>
    match n, h with
    | .node _ (.slot _ (.slot (.node _ (.slot _ .done)) (.slot _ (.slot _ (.slot _
        (.slot _ .done)))))), rfl =>
      exact .of_slots (.node (.tail (.head (.node (.head .self)))))
        (.node (.tail (.tail (.head .self))))
  | _ => cases h

theorem parts_of_constructorMention? {c : ConstructorMention}
    (h : n.constructorMention? = some c) :
    ∃ (period : Tree (.optional .token)) (name : Tree (.optional (.node .simpleIdentifier)))
      (target : Tree (.optional .element)),
      c.period = period.toToken? ∧ c.name = name.toOption.map Tree.reference ∧
        c.target = target.toElement? ∧
        period.IsPart n.node ∧ name.IsPart n.node ∧ target.IsPart n.node := by
  obtain ⟨n⟩ := n
  rename_i k
  cases k with
  | redirectingConstructorInvocation | superConstructorInvocation =>
    match n, h with
    | .node _ (.slot _ (.slot period (.slot name (.slot _ (.slot target .done))))), rfl =>
      exact ⟨period, name, target, rfl, rfl, rfl, ⟨_, .node (.tail (.head .self))⟩,
        ⟨_, .node (.tail (.tail (.head .self)))⟩,
        ⟨_, .node (.tail (.tail (.tail (.tail (.head .self)))))⟩⟩
  | constructorName =>
    match n, h with
    | .node _ (.slot _ (.slot period (.slot name (.slot target .done)))), rfl =>
      exact ⟨period, name, target, rfl, rfl, rfl, ⟨_, .node (.tail (.head .self))⟩,
        ⟨_, .node (.tail (.tail (.head .self)))⟩, ⟨_, .node (.tail (.tail (.tail (.head .self))))⟩⟩
  | _ => cases h

end SomeNode

end UsageIndex
