import UsageIndex.Proofs.Tree.Kinds
import UsageIndex.Proofs.Unit.Recording

/-!
What the options add. Claims do not depend on the options, so a use that one of them adds leaves
all others where they are: the longer list of uses is the shorter one with the definitions of
top-level names, or the implied supertypes of classes, put in between.
-/

set_option autoImplicit false

namespace UsageIndex

/-- The third list is the first one with the items of the second put in between, in their order. -/
inductive Interleaves {α : Type} : List α → List α → List α → Prop where
  | nil : Interleaves [] [] []
  | kept (a : α) {base added whole : List α} :
      Interleaves base added whole → Interleaves (a :: base) added (a :: whole)
  | added (a : α) {base added whole : List α} :
      Interleaves base added whole → Interleaves base (a :: added) (a :: whole)

namespace Interleaves

variable {α : Type} {base added whole base' added' whole' : List α}

theorem refl (base : List α) : Interleaves base [] base := by
  induction base with
  | nil => exact .nil
  | cons a base ih => exact .kept a ih

theorem all (added : List α) : Interleaves [] added added := by
  induction added with
  | nil => exact .nil
  | cons a added ih => exact .added a ih

theorem append (h : Interleaves base added whole) (h' : Interleaves base' added' whole') :
    Interleaves (base ++ base') (added ++ added') (whole ++ whole') := by
  induction h with
  | nil => exact h'
  | kept a _ ih => exact .kept a ih
  | added a _ ih => exact .added a ih

theorem filter (p : α → Bool) (h : Interleaves base added whole) :
    Interleaves (base.filter p) (added.filter p) (whole.filter p) := by
  induction h with
  | nil => exact .nil
  | kept a _ ih =>
    by_cases ha : p a = true
    · simpa [ha] using ih.kept a
    · simpa [ha] using ih
  | added a _ ih =>
    by_cases ha : p a = true
    · simpa [ha] using ih.added a
    · simpa [ha] using ih

theorem sublist (h : Interleaves base added whole) : base.Sublist whole := by
  induction h with
  | nil => exact .slnil
  | kept a _ ih => exact ih.cons_cons a
  | added a _ ih => exact ih.cons a

theorem eq_of_added_nil (h : Interleaves base [] whole) : whole = base := by
  generalize hadded : ([] : List α) = added at h
  induction h with
  | nil => rfl
  | kept a _ ih => rw [ih hadded]
  | added a _ _ => cases hadded

theorem eq_of_base_nil (h : Interleaves [] added whole) : whole = added := by
  generalize hbase : ([] : List α) = base at h
  induction h with
  | nil => rfl
  | kept a _ _ => cases hbase
  | added a _ ih => rw [ih hbase]

theorem filter_eq {p : α → Bool} (h : Interleaves base added whole)
    (hbase : ∀ a ∈ base, p a = true) (hadded : ∀ a ∈ added, p a = false) :
    whole.filter p = base ∧ whole.filter (!p ·) = added := by
  have hkeep : base.filter p = base := List.filter_eq_self.2 hbase
  have hdrop : base.filter (!p ·) = [] := by simpa using hbase
  have hnone : added.filter p = [] := by simpa using hadded
  have hall : added.filter (!p ·) = added := by simpa using hadded
  have hp := h.filter p
  have hnot := h.filter (!p ·)
  rw [hkeep, hnone] at hp
  rw [hdrop, hall] at hnot
  exact ⟨hp.eq_of_added_nil, hnot.eq_of_base_nil⟩

end Interleaves

theorem Interleaves.indexedUses (m : Model) {base added whole : List Candidate}
    (h : Interleaves base added whole) :
    Interleaves (m.indexedUses base) (m.indexedUses added) (m.indexedUses whole) :=
  h.filter _

theorem interleaves_offers {m : Model} {o o' : Options} {added : SomeNode → List Candidate}
    (h : ∀ n claimed, Interleaves (n.shown m o claimed) (added n) (n.shown m o' claimed))
    (ns : List SomeNode) (claimed : List UInt32) :
    Interleaves (offers m o ns claimed) (ns.flatMap added) (offers m o' ns claimed) := by
  induction ns generalizing claimed with
  | nil => exact .nil
  | cons n ns ih => exact (h n claimed).append (ih _)

namespace Tree

def declarations : Node .compilationUnit → List (Node .compilationUnitMember)
  | .node _ (.slot _ (.slot _ (.slot declared .done))) => declared.toList

def declaredClass? : Node .compilationUnitMember → Option (Node .classDeclaration)
  | .node _ (.here declared) => some declared
  | .node _ (.there _) => none

/-- The definitions of all top-level names, in source order. -/
def definitions (unit : Node .compilationUnit) : List Candidate :=
  unit.declarations.flatMap fun d => d.declaredNames.flatMap (Candidate.ofIdentifier .isDefinedBy)

/-- The supertype of the element of a class that has no extends clause, at the name of the class. -/
def impliedExtension (m : Model) (c : Node .classDeclaration) : List Candidate :=
  match c.classHeader.superclass with
  | some _ => []
  | none =>
    let name := c.classHeader.name
    Candidate.of ((name.element.bind m.get?).bind Element.supertype) .isExtendedBy name.location

def impliedExtensions (m : Model) (unit : Node .compilationUnit) : List Candidate :=
  (unit.declarations.filterMap declaredClass?).flatMap (impliedExtension m)

end Tree

def NodeKind.isInner : NodeKind → Bool
  | .compilationUnit | .compilationUnitMember | .classDeclaration => false
  | _ => true

theorem NodeKind.within_isInner (k : NodeKind) (h : k.isInner = true) :
    k.form.within isInner = true := by
  cases k with
  | compilationUnit | compilationUnitMember | classDeclaration => cases h
  | _ => rfl

namespace Tree

section FlatMapNodes

variable {β : Type} {g : SomeNode → List β}
  (hg : ∀ n : SomeNode, n.kind.isInner = true → g n = [])

include hg

theorem flatMap_nodes_inner {f : Form} (t : Tree f) (hf : f.within NodeKind.isInner = true) :
    t.nodes.flatMap g = [] := by
  rw [List.flatMap_eq_nil_iff]
  intro n hn
  exact hg n (t.kind_of_mem_nodes NodeKind.within_isInner hf hn)

theorem flatMap_nodes_member :
    (d : Node .compilationUnitMember) →
      d.nodes.flatMap g = g ⟨d⟩ ++ d.declaredClass?.toList.flatMap fun c => g ⟨c⟩
  | .node _ (.here (.node _ body)) => by
    have hbody := flatMap_nodes_inner hg body rfl
    rw [show declaredClass? (.node _ (.here (.node _ body))) = some (.node _ body) from rfl]
    simp [nodes, hbody]
  | .node _ (.there rest) => by
    have hrest := flatMap_nodes_inner hg rest rfl
    rw [show declaredClass? (.node _ (.there rest)) = none from rfl]
    simp [nodes, hrest]

theorem flatMap_nodes_members :
    (ds : Tree (.many (.node .compilationUnitMember))) →
      ds.nodes.flatMap g =
        ds.toList.flatMap fun d => g ⟨d⟩ ++ d.declaredClass?.toList.flatMap fun c => g ⟨c⟩
  | .nil => rfl
  | .cons d ds => by
    rw [nodes, List.flatMap_append, flatMap_nodes_member hg d, flatMap_nodes_members ds,
      toList_cons, List.flatMap_cons]

/-- What only units, their declarations and their classes give is met declaration by
declaration. -/
theorem flatMap_nodes_unit :
    (unit : Node .compilationUnit) →
      unit.nodes.flatMap g = g ⟨unit⟩ ++ unit.declarations.flatMap fun d =>
        g ⟨d⟩ ++ d.declaredClass?.toList.flatMap fun c => g ⟨c⟩
  | .node _ (.slot e (.slot directives (.slot declared .done))) => by
    have helement := flatMap_nodes_inner hg e rfl
    have hdirectives := flatMap_nodes_inner hg directives rfl
    have hdeclared := flatMap_nodes_members hg declared
    simp only [nodes, List.flatMap_cons, List.flatMap_append, helement, hdirectives,
      List.nil_append, List.append_nil]
    exact congrArg (g _ ++ ·) hdeclared

end FlatMapNodes

end Tree

theorem Tree.interleaves_header (m : Model) (definitions : Bool) (c : Node .classDeclaration) :
    Interleaves (c.constructUses m ⟨definitions, false⟩) (c.impliedExtension m)
      (c.constructUses m ⟨definitions, true⟩) := by
  simp only [constructUses, Candidate.ofHeader, impliedExtension, impliedSupertype]
  cases c.classHeader.superclass with
  | some type => exact .refl _
  | none =>
    have hrest := Interleaves.refl (c.classHeader.mixins.flatMap (Candidate.ofType .isMixedInBy) ++
      c.classHeader.interfaces.flatMap (Candidate.ofType .isImplementedBy))
    simpa using (Interleaves.all _).append hrest

namespace SomeNode

def definitions (n : SomeNode) : List Candidate :=
  match n.kind, n.node with
  | .compilationUnitMember, d => d.declaredNames.flatMap (Candidate.ofIdentifier .isDefinedBy)
  | _, _ => []

def impliedExtension (m : Model) (n : SomeNode) : List Candidate :=
  match n.kind, n.node with
  | .classDeclaration, c => c.impliedExtension m
  | _, _ => []

theorem interleaves_definitions (m : Model) (supertypes : Bool) (n : SomeNode)
    (claimed : List UInt32) :
    Interleaves (n.shown m ⟨false, supertypes⟩ claimed) n.definitions
      (n.shown m ⟨true, supertypes⟩ claimed) := by
  obtain ⟨n⟩ := n
  rename_i k
  cases k with
  | compilationUnitMember => exact .all _
  | _ => exact .refl _

theorem interleaves_impliedExtension (m : Model) (definitions : Bool) (n : SomeNode)
    (claimed : List UInt32) :
    Interleaves (n.shown m ⟨definitions, false⟩ claimed) (n.impliedExtension m)
      (n.shown m ⟨definitions, true⟩ claimed) := by
  obtain ⟨n⟩ := n
  rename_i k
  cases k with
  | classDeclaration => exact n.interleaves_header m definitions
  | _ => exact .refl _

end SomeNode

namespace Tree

theorem flatMap_definitions (unit : Node .compilationUnit) :
    unit.nodes.flatMap SomeNode.definitions = unit.definitions := by
  have hinner : ∀ n : SomeNode, n.kind.isInner = true → n.definitions = [] := by
    rintro @⟨k, n⟩ hn
    cases k with
    | compilationUnitMember => cases hn
    | _ => rfl
  have hclass : ∀ d : Node .compilationUnitMember,
      (d.declaredClass?.toList.flatMap fun c => (⟨c⟩ : SomeNode).definitions) = [] :=
    fun _ => List.flatMap_eq_nil_iff.2 fun _ _ => rfl
  simp only [flatMap_nodes_unit hinner, hclass, List.append_nil]
  rfl

theorem flatMap_impliedExtension (m : Model) (unit : Node .compilationUnit) :
    unit.nodes.flatMap (SomeNode.impliedExtension m) = unit.impliedExtensions m := by
  have hinner : ∀ n : SomeNode, n.kind.isInner = true → n.impliedExtension m = [] := by
    rintro @⟨k, n⟩ hn
    cases k with
    | classDeclaration => cases hn
    | _ => rfl
  rw [flatMap_nodes_unit hinner]
  simp only [SomeNode.impliedExtension, List.nil_append]
  rw [impliedExtensions, List.filterMap_eq_flatMap_toList, List.flatMap_assoc]

end Tree

namespace Candidate

theorem kind_of_mem_of {target : Option ElementId} {kind : RelationKind} {location : Location}
    {c : Candidate} (h : c ∈ of target kind location) : c.kind = kind := by
  cases target with
  | none => cases h
  | some e => rw [List.mem_singleton.1 h]

theorem kind_of_mem_ofType {kind : RelationKind} {ts : List TypeMention} {c : Candidate}
    (h : c ∈ ts.flatMap (ofType kind)) : c.kind = kind := by
  obtain ⟨t, -, ht⟩ := List.mem_flatMap.1 h
  exact kind_of_mem_of ht

theorem kind_ne_of_mem_ofHeader {implied : List Candidate} {h : ClassHeader}
    (himplied : ∀ c ∈ implied, c.kind ≠ .isDefinedBy) {c : Candidate}
    (hc : c ∈ ofHeader implied h) : c.kind ≠ .isDefinedBy := by
  rw [ofHeader, List.mem_append, List.mem_append] at hc
  rcases hc with (hc | hc) | hc
  · cases hs : h.superclass with
    | none => exact himplied c (by simpa [hs] using hc)
    | some t => simp [kind_of_mem_of (by simpa [hs] using hc : c ∈ ofType .isExtendedBy t)]
  · simp [kind_of_mem_ofType hc]
  · simp [kind_of_mem_ofType hc]

theorem kind_ne_of_mem_ofLink {m : Model} {d : LinkDirective} {c : Candidate}
    (hc : c ∈ ofLink m d) : c.kind ≠ .isDefinedBy := by
  rcases List.mem_append.1 hc with hc | hc <;> simp [kind_of_mem_of hc]

end Candidate

namespace Tree

theorem kind_ne_of_mem_impliedSupertype {m : Model} {o : Options} {name : Identifier}
    {c : Candidate} (hc : c ∈ impliedSupertype m o name) : c.kind ≠ .isDefinedBy := by
  rw [impliedSupertype] at hc
  split at hc
  · simp [Candidate.kind_of_mem_of hc]
  · cases hc

theorem kind_ne_of_mem_referenceUses {m : Model} {n : Node .simpleIdentifier} {c : Candidate}
    (hc : c ∈ n.referenceUses m) : c.kind ≠ .isDefinedBy := by
  rw [referenceUses] at hc
  split at hc
  · simp [Candidate.kind_of_mem_of hc]
  · cases hc

theorem kind_ne_of_mem_constructUses {m : Model} {o : Options} (ho : o.recordDefinitions = false)
    {k : NodeKind} {n : Node k} {c : Candidate} (hc : c ∈ n.constructUses m o) :
    c.kind ≠ .isDefinedBy := by
  cases k with
  | compilationUnitMember =>
    rw [constructUses, ho] at hc
    cases hc
  | classDeclaration =>
    exact Candidate.kind_ne_of_mem_ofHeader (fun _ => kind_ne_of_mem_impliedSupertype) hc
  | classTypeAlias => exact Candidate.kind_ne_of_mem_ofHeader (by simp) hc
  | importDirective | exportDirective => exact Candidate.kind_ne_of_mem_ofLink hc
  | fieldFormalParameter | constructorFieldInitializer | redirectingConstructorInvocation
  | superConstructorInvocation | partDirective | partOfDirective | binaryExpression
  | assignmentExpression | prefixExpression | postfixExpression | indexExpression
  | methodInvocation | constructorName => simp [Candidate.kind_of_mem_of hc]
  | _ => cases hc

end Tree

theorem SomeNode.kind_ne_of_mem_shown {m : Model} {o : Options} (ho : o.recordDefinitions = false)
    {n : SomeNode} {claimed : List UInt32} {c : Candidate} (hc : c ∈ n.shown m o claimed) :
    c.kind ≠ .isDefinedBy := by
  obtain ⟨n⟩ := n
  rename_i k
  by_cases hk : k = .simpleIdentifier
  · subst hk
    simp only [shown] at hc
    split at hc
    · cases hc
    · exact Tree.kind_ne_of_mem_referenceUses hc
  · rw [shown_of_ne m o claimed n hk] at hc
    exact Tree.kind_ne_of_mem_constructUses ho hc

theorem kind_ne_of_mem_offers {m : Model} {o : Options} (ho : o.recordDefinitions = false)
    {ns : List SomeNode} {claimed : List UInt32} {c : Candidate} (hc : c ∈ offers m o ns claimed) :
    c.kind ≠ .isDefinedBy := by
  induction ns generalizing claimed with
  | nil => cases hc
  | cons n ns ih =>
    rcases List.mem_append.1 hc with hn | hns
    · exact SomeNode.kind_ne_of_mem_shown ho hn
    · exact ih hns

namespace Tree

theorem kind_of_mem_definitions {unit : Node .compilationUnit} {c : Candidate}
    (hc : c ∈ unit.definitions) : c.kind = .isDefinedBy := by
  obtain ⟨d, -, hd⟩ := List.mem_flatMap.1 hc
  obtain ⟨i, -, hi⟩ := List.mem_flatMap.1 hd
  exact Candidate.kind_of_mem_of hi

theorem interleaves_candidates_definitions (m : Model) (supertypes : Bool)
    (unit : Node .compilationUnit) :
    Interleaves (unit.candidates m ⟨false, supertypes⟩) unit.definitions
      (unit.candidates m ⟨true, supertypes⟩) := by
  rw [← unit.flatMap_definitions]
  exact interleaves_offers (SomeNode.interleaves_definitions m supertypes) unit.nodes []

theorem interleaves_candidates_impliedExtensions (m : Model) (definitions : Bool)
    (unit : Node .compilationUnit) :
    Interleaves (unit.candidates m ⟨definitions, false⟩) (unit.impliedExtensions m)
      (unit.candidates m ⟨definitions, true⟩) := by
  rw [← unit.flatMap_impliedExtension m]
  exact interleaves_offers (SomeNode.interleaves_impliedExtension m definitions) unit.nodes []

end Tree

end UsageIndex
