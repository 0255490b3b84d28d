import UsageIndex.Proofs.Package.Run
import UsageIndex.Proofs.Tree.Identifiers
import UsageIndex.Proofs.Unit.Classification

/-!
Names that are declared are not references. What they resolve to can be forgotten, and the unit
still contributes the same; so units that agree in all else cannot be told apart by their index.
-/

set_option autoImplicit false

namespace UsageIndex

/-- The fields of a node in which elements are forgotten. The name of a class counts for an
implied supertype and is forgotten on demand; the name of a field formal parameter stands for
the field. A declared identifier forgets its element if its place says so. -/
def NodeKind.forgottenFields (classNames forgets : Bool) : NodeKind → List String
  | .declaredIdentifier => if forgets then ["static_element"] else []
  | .libraryDirective => ["element"]
  | .constructorDeclaration => "element" :: declaringFields .constructorDeclaration
  | .classDeclaration => if classNames then declaringFields .classDeclaration else []
  | .fieldFormalParameter => []
  | k => k.declaringFields

/-- The tree without the elements in forgotten fields; those of a record are given by `fields`. -/
def Tree.forget (classNames : Bool) {f : Form} :
    Tree f → (fields : String → Bool) → (forgets : Bool) → Tree f
  | .token t, _, _ => .token t
  | .element e, _, _ => .element e
  | .node k body, _, forgets =>
    .node k (body.forget classNames (k.forgottenFields classNames forgets).contains false)
  | .absent, _, _ => .absent
  | @Tree.present f t, fields, forgets =>
    if forgets && f == .element then .absent else .present (t.forget classNames fields forgets)
  | .nil, _, _ => .nil
  | .cons x xs, fields, forgets =>
    .cons (x.forget classNames fields forgets) (xs.forget classNames fields forgets)
  | .nothing, _, _ => .nothing
  | .done, _, _ => .done
  | @Tree.slot name _ _ _ x xs, fields, forgets =>
    .slot (x.forget classNames (fun _ => false) (fields name))
      (xs.forget classNames fields forgets)
  | .here t, fields, forgets => .here (t.forget classNames fields forgets)
  | .there t, fields, forgets => .there (t.forget classNames fields forgets)

/-- Whether two units differ only in the elements of declared names. -/
def Tree.SameButNames (classNames : Bool) (unit unit' : Node .compilationUnit) : Prop :=
  unit.forget classNames (fun _ => false) false = unit'.forget classNames (fun _ => false) false

def NodeKind.keepsElements : NodeKind → Bool
  | .compilationUnit | .directive | .libraryDirective | .importDirective
  | .compilationUnitMember | .typeParameter | .classDeclaration | .classTypeAlias
  | .enumDeclaration | .functionDeclaration | .functionTypeAlias | .variableDeclarationList
  | .variableDeclaration | .classMember | .constructorDeclaration | .methodDeclaration
  | .fieldDeclaration | .formalParameterList | .formalParameter | .simpleFormalParameter
  | .defaultFormalParameter | .functionBody | .block | .statement | .ifStatement
  | .whileStatement | .labeledStatement => false
  | _ => true

theorem NodeKind.keepsElements_closed (classNames : Bool) {k : NodeKind}
    (h : k.keepsElements = true) :
    k.forgottenFields classNames false = [] ∧ k.form.within keepsElements = true := by
  cases k <;> first | exact ⟨rfl, rfl⟩ | cases h

namespace Tree

variable (classNames : Bool)

theorem forget_eq_self {f : Form} (t : Tree f) (hf : f.within NodeKind.keepsElements = true) :
    t.forget classNames (fun _ => false) false = t := by
  induction t with
  | node k body ih =>
    obtain ⟨hfields, hform⟩ := NodeKind.keepsElements_closed classNames hf
    rw [forget, hfields]
    exact congrArg (node k) (ih hform)
  | present t ih => exact congrArg present (ih hf)
  | cons x xs ihx ihxs => exact congrArg₂ cons (ihx hf) (ihxs hf)
  | slot x xs ihx ihxs =>
    obtain ⟨hx, hxs⟩ := Bool.and_eq_true_iff.1 hf
    exact congrArg₂ slot (ihx hx) (ihxs hxs)
  | here t ih => exact congrArg here (ih (Bool.and_eq_true_iff.1 hf).1)
  | there t ih => exact congrArg there (ih (Bool.and_eq_true_iff.1 hf).2)
  | _ => rfl

variable (fields : String → Bool) (forgets : Bool)

theorem forget_node_eq_self {k : NodeKind} (n : Node k) (hk : k.keepsElements = true)
    (hfields : k.forgottenFields classNames forgets = []) :
    n.forget classNames fields forgets = n := by
  cases n with
  | node k body =>
    rw [forget, hfields]
    exact congrArg (node k) (body.forget_eq_self classNames
      (NodeKind.keepsElements_closed classNames hk).2)

theorem declaration_forget :
    (n : Node .declaredIdentifier) → (n.forget classNames fields forgets).declaration =
      if forgets then { n.declaration with element := none } else n.declaration
  | .node _ (.slot (.token t) (.slot .absent .done)) => by cases forgets <;> rfl
  | .node _ (.slot (.token t) (.slot (.present (.element e)) .done)) => by cases forgets <;> rfl

theorem classHeader_forget :
    (n : Node .classDeclaration) → (n.forget classNames fields forgets).classHeader =
      { n.classHeader with
        name := if classNames then { n.classHeader.name with element := none }
          else n.classHeader.name }
  | .node _ (.slot _ (.slot _ (.slot name (.slot _ (.slot extending (.slot mixing
      (.slot implementing rest))))))) => by
    have hname := name.declaration_forget classNames (fun _ => false) classNames
    have hsuperclass := congrArg (·.toOption.map superclass)
      (extending.forget_eq_self classNames rfl)
    have hmixins := congrArg (fun t => (t.toOption.map mixins).getD [])
      (mixing.forget_eq_self classNames rfl)
    have hinterfaces := congrArg (fun t => (t.toOption.map interfaces).getD [])
      (implementing.forget_eq_self classNames rfl)
    -- Whether the name is among the forgotten fields is known only for each value of `classNames`.
    cases classNames <;>
      exact congr (congr (congr (congrArg ClassHeader.mk hname) hsuperclass) hmixins) hinterfaces

theorem aliasHeader_forget :
    (n : Node .classTypeAlias) → (n.forget classNames fields forgets).aliasHeader =
      { n.aliasHeader with name := { n.aliasHeader.name with element := none } }
  | .node _ (.slot _ (.slot name (.slot _ (.slot _ (.slot type (.slot mixing
      (.slot implementing _))))))) => by
    have hname := name.declaration_forget classNames (fun _ => false) true
    have hsuperclass := congrArg (fun t => some t.typeMention)
      (type.forget_eq_self classNames rfl)
    have hmixins := congrArg mixins (mixing.forget_eq_self classNames rfl)
    have hinterfaces := congrArg (fun t => (t.toOption.map interfaces).getD [])
      (implementing.forget_eq_self classNames rfl)
    exact congr (congr (congr (congrArg ClassHeader.mk hname) hsuperclass) hmixins) hinterfaces

theorem importDirective_forget :
    (n : Node .importDirective) →
      (n.forget classNames fields forgets).importDirective = n.importDirective
  | .node _ (.slot (.token keyword) (.slot uri (.slot target (.slot e (.slot _ (.slot _
      (.slot (.token semicolon) .done))))))) => by
    have huri := congrArg stringToken (uri.forget_eq_self classNames rfl)
    have htarget := congrArg toElement? (target.forget_eq_self classNames rfl)
    have hdirective := congrArg (fun t => Directive.mk keyword semicolon t.toElement?)
      (e.forget_eq_self classNames rfl)
    have hlink := congr (congr (congrArg LinkDirective.mk hdirective) huri) htarget
    exact hlink

theorem unitElement_forget :
    (n : Node .compilationUnit) → (n.forget classNames fields forgets).unitElement = n.unitElement
  | .node _ (.slot (.element _) _) => rfl

end Tree

structure SomeNode.Alike (m : Model) (o : Options) (n n' : SomeNode) : Prop where
  shown : ∀ claimed, n.shown m o claimed = n'.shown m o claimed
  claimedBehind : ∀ claimed, n.claimedBehind claimed = n'.claimedBehind claimed

namespace SomeNode.Alike

variable {m : Model} {o : Options}

theorem refl (n : SomeNode) : Alike m o n n := ⟨fun _ => rfl, fun _ => rfl⟩

theorem of_construct {k : NodeKind} {n n' : Node k} (hk : k ≠ .simpleIdentifier)
    (huses : n.constructUses m o = n'.constructUses m o) (hclaims : n.claims = n'.claims) :
    Alike m o ⟨n⟩ ⟨n'⟩ := by
  refine ⟨fun claimed => ?_, fun claimed => ?_⟩
  · rw [shown_of_ne m o claimed n hk, shown_of_ne m o claimed n' hk, huses]
  · simp only [SomeNode.claimedBehind, reference?_eq_none n hk, reference?_eq_none n' hk, hclaims]

end SomeNode.Alike

theorem offers_eq_of_alike {m : Model} {o : Options} {ns ns' : List SomeNode}
    (h : List.Forall₂ (SomeNode.Alike m o) ns ns') (claimed : List UInt32) :
    offers m o ns claimed = offers m o ns' claimed := by
  induction h generalizing claimed with
  | nil => rfl
  | cons hn _ ih => rw [offers, offers, hn.shown, hn.claimedBehind, ih]

section Forgetting

variable {m : Model} {o : Options} {classNames : Bool} (ho : o.recordDefinitions = false)
  (hc : classNames = true → o.indexImplicitSupertypes = false)

include hc in
theorem SomeNode.alike_forget_class (n : Node .classDeclaration) (fields : String → Bool)
    (forgets : Bool) : Alike m o ⟨n.forget classNames fields forgets⟩ ⟨n⟩ := by
  have hheader := n.classHeader_forget classNames fields forgets
  refine .of_construct (by decide) ?_ ?_
  · simp only [Tree.constructUses, hheader]
    cases classNames with
    | false => rfl
    | true => simp [Tree.impliedSupertype, hc rfl, Candidate.ofHeader]
  · simp only [Tree.claims, hheader]
    rfl

include ho hc in
/-- Every node shows the same without the elements of declared names. -/
theorem SomeNode.alike_forget {k : NodeKind} (n : Node k) (fields : String → Bool)
    (forgets : Bool) : Alike m o ⟨n.forget classNames fields forgets⟩ ⟨n⟩ := by
  cases k with
  | compilationUnitMember =>
    refine .of_construct (by decide) ?_ rfl
    simp [Tree.constructUses, ho]
  | classDeclaration => exact alike_forget_class hc n fields forgets
  | classTypeAlias =>
    have hheader := n.aliasHeader_forget classNames fields forgets
    refine .of_construct (by decide) ?_ ?_
    · simp only [Tree.constructUses, hheader]
      rfl
    · simp only [Tree.claims, hheader]
      rfl
  | importDirective =>
    refine .of_construct (by decide) ?_ rfl
    simp only [Tree.constructUses, n.importDirective_forget]
  | simpleIdentifier | fieldFormalParameter | constructorFieldInitializer
  | redirectingConstructorInvocation | superConstructorInvocation | exportDirective
  | partDirective | partOfDirective | binaryExpression | assignmentExpression | prefixExpression
  | postfixExpression | indexExpression | methodInvocation | constructorName =>
    rw [n.forget_node_eq_self classNames fields forgets rfl rfl]
    exact .refl _
  | _ => exact .of_construct (by decide) rfl rfl

namespace Tree

include ho hc in
theorem forall₂_nodes_forget {f : Form} (t : Tree f) (fields : String → Bool) (forgets : Bool) :
    List.Forall₂ (SomeNode.Alike m o) (t.forget classNames fields forgets).nodes t.nodes := by
  induction t generalizing fields forgets with
  | node k body ih =>
    exact .cons (SomeNode.alike_forget ho hc (node k body) fields forgets) (ih _ _)
  | @present f t ih =>
    rw [forget]
    split
    · rename_i h
      have hf : f = .element := eq_of_beq (Bool.and_eq_true_iff.1 h).2
      subst hf
      rw [nodes, nodes, t.nodes_eq_nil rfl]
      exact .nil
    · exact ih fields forgets
  | cons x xs ihx ihxs => exact List.rel_append (ihx _ _) (ihxs _ _)
  | slot x xs ihx ihxs => exact List.rel_append (ihx _ _) (ihxs _ _)
  | here t ih => exact ih fields forgets
  | there t ih => exact ih fields forgets
  | _ => exact .nil

include ho hc in
theorem candidates_forget (unit : Node .compilationUnit) :
    (unit.forget classNames (fun _ => false) false).candidates m o = unit.candidates m o :=
  offers_eq_of_alike (unit.forall₂_nodes_forget ho hc _ _) []

variable {unit unit' : Node .compilationUnit}

theorem SameButNames.unitElement_eq (h : unit.SameButNames classNames unit') :
    unit.unitElement = unit'.unitElement := by
  rw [← unit.unitElement_forget classNames (fun _ => false) false, h, unitElement_forget]

include ho hc in
theorem SameButNames.contribute_eq (h : unit.SameButNames classNames unit') (r : Recording) :
    r.contribute m o unit = r.contribute m o unit' := by
  rw [r.contribute_eq, r.contribute_eq, ← unit.candidates_forget ho hc, h,
    unit'.candidates_forget ho hc]

end Tree

end Forgetting

namespace PackageBuilder

variable {m : Model} {o : Options} {b : PackageBuilder} {unit unit' : Node .compilationUnit}

theorem indexUnit_eq_of_contribute (hm : b.model = m) (ho : b.options = o)
    (hroot : unit.unitElement = unit'.unitElement)
    (hr : ∀ r : Recording, r.contribute m o unit = r.contribute m o unit') :
    b.indexUnit unit = b.indexUnit unit' := by
  subst hm ho
  cases hu : b.model.unitUris unit.unitElement with
  | error fault => rw [indexUnit_error rfl hu, indexUnit_error rfl (hroot ▸ hu)]
  | ok pair =>
    have hkey := UriTable.runOn_enterUnit_ok hu b.tables.uris
    rw [indexUnit_eq_ok_iff.2 (runOn_enterUnit_ok hkey),
      indexUnit_eq_ok_iff.2 (runOn_enterUnit_ok (hroot ▸ hkey))]
    simp only [addUnit, hr]

theorem indexAll_eq_of_contribute (hm : b.model = m) (ho : b.options = o)
    (h : b.tables.Traced m) (hroot : unit.unitElement = unit'.unitElement)
    (hr : ∀ r : Recording, r.contribute m o unit = r.contribute m o unit')
    (before after : List (Node .compilationUnit)) :
    b.indexAll (before ++ unit :: after) = b.indexAll (before ++ unit' :: after) := by
  induction before generalizing b with
  | nil =>
    rw [List.nil_append, List.nil_append, indexAll, indexAll,
      indexUnit_eq_of_contribute hm ho hroot hr]
  | cons first before ih =>
    cases hp : m.unitUris first.unitElement with
    | error fault => simp only [List.cons_append, indexAll, indexUnit_error hm hp]
    | ok pair =>
      obtain ⟨b₁, hstep, hran⟩ := indexUnit_ok hm ho h hp
      simp only [List.cons_append, indexAll, hstep]
      exact ih hran.model hran.options hran.traced

end PackageBuilder

/-- Without definitions, units that differ only in the elements of declared names contribute the
same, and an index does not tell one from the other. The names of classes are among these names
if no supertypes are implied. -/
theorem declaredNames_invisible {m : Model} {o : Options} {classNames : Bool}
    (ho : o.recordDefinitions = false)
    (hc : classNames = true → o.indexImplicitSupertypes = false)
    {unit unit' : Node .compilationUnit} (h : unit.SameButNames classNames unit') :
    (∀ r : Recording, r.contribute m o unit = r.contribute m o unit') ∧
      ∀ before after, indexUnits m o (before ++ unit :: after) =
        indexUnits m o (before ++ unit' :: after) := by
  have hr : ∀ r : Recording, r.contribute m o unit = r.contribute m o unit' := h.contribute_eq ho hc
  refine ⟨hr, ?_⟩
  intro before after
  have hrun := PackageBuilder.indexAll_eq_of_contribute
    (b := { model := m, options := o }) rfl rfl (Tables.traced_empty m) h.unitElement_eq hr before
    after
  simp [indexUnits, hrun]

namespace Sample

def labelledWithClass (function parameter label name : Option ElementId) : Node .compilationUnit :=
  Tree.addDeclaration (labelled function parameter label)
    (.node _ (.here (.classDeclaration ⟨"class", 22⟩ (.declaredIdentifier ⟨⟨"C", 28⟩, name⟩))))

end Sample

/-- All four declared names resolve to classes, or to nothing; what is recorded is the type of the
parameter. -/
theorem declaredNames_invisible_sample :
    let unit := Sample.labelledWithClass (some ⟨2⟩) (some ⟨5⟩) (some ⟨2⟩) (some ⟨5⟩)
    let unit' := Sample.labelledWithClass none none none none
    let start : Recording := { tables := {}, unit := { key := ⟨⟨0⟩, ⟨0⟩⟩ } }
    unit.SameButNames true unit' ∧
      (start.contribute Sample.model ⟨false, false⟩ unit').uses? =
        some [⟨⟨2⟩, .isReferencedBy, ⟨2, 1⟩⟩] ∧
      (∀ r : Recording, r.contribute Sample.model ⟨false, false⟩ unit =
        r.contribute Sample.model ⟨false, false⟩ unit') ∧
      ∀ before after, indexUnits Sample.model ⟨false, false⟩ (before ++ unit :: after) =
        indexUnits Sample.model ⟨false, false⟩ (before ++ unit' :: after) := by
  intro unit unit' start
  have hsame : unit.SameButNames true unit' := rfl
  have hrecorded : (start.contribute Sample.model ⟨false, false⟩ unit').uses? =
      some [⟨⟨2⟩, .isReferencedBy, ⟨2, 1⟩⟩] := by decide
  exact ⟨hsame, hrecorded, declaredNames_invisible rfl (fun _ => rfl) hsame⟩

end UsageIndex
