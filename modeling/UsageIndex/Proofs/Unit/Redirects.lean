import UsageIndex.Proofs.Unit.Parts
import UsageIndex.Proofs.Unit.Recording

/-!
Synthetic constructors that redirect to others. Where only the places for constructors mention
constructors, a use comes to a constructor through one step of redirection; so if no redirect
leads to another redirect, none is ever used but those that redirect to themselves.
-/

set_option autoImplicit false

namespace UsageIndex

namespace Model

def IsConstructor (m : Model) (e : ElementId) : Prop :=
  ∃ element, m.get? e = some element ∧ element.kind = .constructor

instance (m : Model) (e : ElementId) : Decidable (m.IsConstructor e) :=
  decidable_of_iff (∃ element ∈ m.get? e, element.kind = .constructor) Iff.rfl

/-- The first element is a synthetic constructor that redirects to the second. -/
def Redirects (m : Model) (e r : ElementId) : Prop :=
  ∃ element, m.get? e = some element ∧ element.kind = .constructor ∧
    element.isSynthetic = true ∧ element.redirectedConstructor = some r

def IsRedirect (m : Model) (e : ElementId) : Prop := ∃ r, m.Redirects e r

/-- No redirect leads to another redirect. -/
def RedirectsOnce (m : Model) : Prop := ∀ e r, m.Redirects e r → m.IsRedirect r → r = e

/-- A class has this supertype, a parameter sets this field, or an import or export brings this
library. -/
def IsLinked (m : Model) (e : ElementId) : Prop :=
  ∃ element ∈ m.elements,
    element.supertype = some e ∨ element.field = some e ∨ element.library = some e

variable {m : Model} {e r : ElementId}

theorem IsRedirect.isConstructor (h : m.IsRedirect e) : m.IsConstructor e := by
  obtain ⟨r, element, he, hk, -, -⟩ := h
  exact ⟨element, he, hk⟩

theorem Redirects.redirectTarget (h : m.Redirects e r) : m.redirectTarget e = r := by
  obtain ⟨element, he, hk, hs, hr⟩ := h
  simp [Model.redirectTarget, he, hk, hs, hr]

theorem redirectTarget_eq_self (h : ¬ m.IsRedirect e) : m.redirectTarget e = e := by
  unfold redirectTarget
  cases he : m.get? e with
  | none => rfl
  | some element =>
    by_cases hs : element.kind = .constructor ∧ element.isSynthetic = true
    · cases hr : element.redirectedConstructor with
      | none => simp [hs, hr]
      | some r => exact absurd ⟨r, element, he, hs.1, hs.2, hr⟩ h
    · simp [hs]

theorem RedirectsOnce.redirects_self (h : m.RedirectsOnce) (e : ElementId)
    (htarget : m.IsRedirect (m.redirectTarget e)) :
    m.Redirects (m.redirectTarget e) (m.redirectTarget e) := by
  by_cases he : m.IsRedirect e
  · obtain ⟨r, hr⟩ := he
    rw [hr.redirectTarget] at htarget ⊢
    obtain rfl := h e r hr htarget
    exact hr
  · rw [redirectTarget_eq_self he] at htarget
    exact absurd htarget he

theorem isLinked_of_get? {id : Option ElementId} {element : Element}
    (h : id.bind m.get? = some element)
    (he : element.supertype = some e ∨ element.field = some e ∨ element.library = some e) :
    m.IsLinked e := by
  obtain ⟨i, -, hi⟩ := Option.bind_eq_some_iff.1 h
  exact ⟨element, List.mem_of_getElem? hi, he⟩

end Model

namespace Tree

theorem otherMentions_subset {f : Form} (t : Tree f) (fields : String → Bool) (named : Bool)
    {n : SomeNode} (hn : n ∈ t.nodes)
    (hk : ∀ named, n.kind.constructorFields named = n.kind.constructorFields false) :
    n.node.otherMentions (fun _ => false) false ⊆ t.otherMentions fields named := by
  induction t generalizing fields named with
  | node k body ih =>
    rcases List.mem_cons.1 hn with rfl | hbody
    · rw [otherMentions, otherMentions, hk named]
      exact List.Subset.refl _
    · exact ih _ _ hbody
  | present t ih => exact ih fields named hn
  | cons x xs ihx ihxs =>
    rcases List.mem_append.1 hn with hx | hxs
    · exact List.subset_append_of_subset_left _ (ihx _ _ hx)
    · exact List.subset_append_of_subset_right _ (ihxs _ _ hxs)
  | slot x xs ihx ihxs =>
    rcases List.mem_append.1 hn with hx | hxs
    · exact List.subset_append_of_subset_left _ (ihx _ _ hx)
    · exact List.subset_append_of_subset_right _ (ihxs _ _ hxs)
  | here t ih => exact ih fields named hn
  | there t ih => exact ih fields named hn
  | _ => cases hn

end Tree

inductive SomeNode.Reaches (m : Model) (n : SomeNode) : ElementId → Prop where
  | mention {e : ElementId} (h : e ∈ n.node.otherMentions (fun _ => false) false) : Reaches m n e
  | link {e : ElementId} (h : m.IsLinked e) : Reaches m n e
  | redirection {mention : ConstructorMention} {e : ElementId}
      (hn : n.constructorMention? = some mention) (he : e ∈ mention.target) :
      Reaches m n (m.redirectTarget e)

theorem SomeNode.Reaches.redirects_self {m : Model} {n : SomeNode} {e : ElementId}
    (h : n.Reaches m e) (hm : m.RedirectsOnce) (hlinks : ∀ e, m.IsLinked e → ¬ m.IsConstructor e)
    (hmentions : ∀ e ∈ n.node.otherMentions (fun _ => false) false, ¬ m.IsConstructor e)
    (hr : m.IsRedirect e) : m.Redirects e e := by
  cases h with
  | mention he => exact absurd hr.isConstructor (hmentions e he)
  | link he => exact absurd hr.isConstructor (hlinks e he)
  | @redirection _ e => exact hm.redirects_self e hr

namespace Candidate

variable {m : Model} {c : Candidate} {n : SomeNode}

theorem mem_of {target : Option ElementId} {kind : RelationKind} {location : Location}
    (h : c ∈ of target kind location) : c.target ∈ target := by
  obtain ⟨e, he, rfl⟩ := Option.map_eq_some_iff.1 (Option.mem_toList.1 h)
  exact he

theorem mem_ofHeader {implied : List Candidate} {h : ClassHeader} (hc : c ∈ ofHeader implied h) :
    c ∈ implied ∨ ∃ type kind, h.Names type ∧ c ∈ ofType kind type := by
  rcases List.mem_append.1 hc with hc | hc
  · rcases List.mem_append.1 hc with hc | hc
    · cases hs : h.superclass with
      | none =>
        rw [hs] at hc
        exact .inl hc
      | some type =>
        rw [hs] at hc
        exact .inr ⟨type, .isExtendedBy, .inl hs, hc⟩
    · obtain ⟨type, htype, hc⟩ := List.mem_flatMap.1 hc
      exact .inr ⟨type, .isMixedInBy, .inr (.inl htype), hc⟩
  · obtain ⟨type, htype, hc⟩ := List.mem_flatMap.1 hc
    exact .inr ⟨type, .isImplementedBy, .inr (.inr htype), hc⟩

theorem reaches_ofConstructor {mention : ConstructorMention} (h : c ∈ ofConstructor m mention)
    (hn : n.constructorMention? = some mention) : n.Reaches m c.target := by
  obtain ⟨e, he, htarget⟩ := Option.map_eq_some_iff.1 (mem_of h)
  rw [← htarget]
  exact .redirection hn he

theorem reaches_of_holds {token : Token} {target : Option ElementId} {kind : RelationKind}
    {location : Location} (h : c ∈ of target kind location) (hn : n.node.Holds token target) :
    n.Reaches m c.target :=
  .mention (hn.mention _ (mem_of h))

theorem reaches_ofLink {d : LinkDirective} (h : c ∈ ofLink m d) (hn : n.link? = some d) :
    n.Reaches m c.target := by
  rcases List.mem_append.1 h with hc | hc
  · exact reaches_of_holds hc (SomeNode.holds_of_link? hn)
  · obtain ⟨element, he, hl⟩ := Option.bind_eq_some_iff.1 (mem_of hc)
    exact .link (Model.isLinked_of_get? he (.inr (.inr hl)))

end Candidate

namespace Tree

variable {m : Model} {o : Options} {c : Candidate}

theorem isLinked_of_impliedSupertype {name : Identifier} (h : c ∈ impliedSupertype m o name) :
    m.IsLinked c.target := by
  unfold impliedSupertype at h
  split at h
  · obtain ⟨element, he, hs⟩ := Option.bind_eq_some_iff.1 (Candidate.mem_of h)
    exact Model.isLinked_of_get? he (.inl hs)
  · cases h

theorem reaches_of_constructUses {k : NodeKind} (n : Node k) (h : c ∈ n.constructUses m o) :
    (⟨n⟩ : SomeNode).Reaches m c.target := by
  cases k with
  | compilationUnitMember =>
    simp only [constructUses] at h
    split at h
    · obtain ⟨i, hi, hc⟩ := List.mem_flatMap.1 h
      exact Candidate.reaches_of_holds hc (holds_of_declaredNames hi)
    · cases h
  | classDeclaration =>
    rcases Candidate.mem_ofHeader h with hc | ⟨type, kind, htype, hc⟩
    · exact .link (isLinked_of_impliedSupertype hc)
    · exact Candidate.reaches_of_holds hc (hasType_of_classHeader htype).holds
  | classTypeAlias =>
    rcases Candidate.mem_ofHeader h with hc | ⟨type, kind, htype, hc⟩
    · cases hc
    · exact Candidate.reaches_of_holds hc (hasType_of_aliasHeader htype).holds
  | fieldFormalParameter =>
    obtain ⟨element, he, hf⟩ := Option.bind_eq_some_iff.1 (Candidate.mem_of h)
    exact .link (Model.isLinked_of_get? he (.inr (.inl hf)))
  | constructorFieldInitializer => exact Candidate.reaches_of_holds h (holds_initializedField n)
  | redirectingConstructorInvocation | superConstructorInvocation | constructorName =>
    exact Candidate.reaches_ofConstructor h rfl
  | importDirective | exportDirective => exact Candidate.reaches_ofLink h rfl
  | partDirective | partOfDirective =>
    exact Candidate.reaches_of_holds h (SomeNode.holds_of_part? rfl).1
  | binaryExpression | assignmentExpression | prefixExpression | postfixExpression
  | indexExpression => exact Candidate.reaches_of_holds h (SomeNode.holds_of_operation? rfl)
  | methodInvocation => exact Candidate.reaches_of_holds h (holds_methodName n)
  | _ => cases h

/-- The places in a construct that shows uses do not depend on where the construct stands. -/
theorem constructorFields_of_constructUses {k : NodeKind} (n : Node k)
    (h : c ∈ n.constructUses m o) (named : Bool) :
    k.constructorFields named = k.constructorFields false := by
  cases k with
  | typeName | prefixedIdentifier | simpleIdentifier | declaredIdentifier => cases h
  | _ => rfl

theorem not_isConstructor_of_referenceUses {n : Node .simpleIdentifier}
    (h : c ∈ n.referenceUses m) : ¬ m.IsConstructor c.target := by
  rintro ⟨element, he, hk⟩
  unfold referenceUses at h
  split at h
  · rename_i hany
    have htarget : n.reference.element = some c.target := Candidate.mem_of h
    simp [htarget, he, hk, ElementKind.isReferenceable] at hany
  · cases h

end Tree

/-- In these units only the places for constructors mention constructors, and no supertype, field
or library of an element is one. -/
structure Model.KeepsConstructorsApart (m : Model) (units : List (Node .compilationUnit)) :
    Prop where
  links : ∀ e, m.IsLinked e → ¬ m.IsConstructor e
  mentions : ∀ unit ∈ units, ∀ e ∈ unit.otherMentions (fun _ => false) false, ¬ m.IsConstructor e

theorem mem_offers {m : Model} {o : Options} {ns : List SomeNode} {claimed : List UInt32}
    {c : Candidate} (h : c ∈ offers m o ns claimed) :
    ∃ n ∈ ns, ∃ claimed', c ∈ n.shown m o claimed' := by
  induction ns generalizing claimed with
  | nil => cases h
  | cons n ns ih =>
    rcases List.mem_append.1 h with hn | hns
    · exact ⟨n, List.mem_cons_self, claimed, hn⟩
    · obtain ⟨n', hn', hc⟩ := ih hns
      exact ⟨n', List.mem_cons_of_mem _ hn', hc⟩

namespace Model.KeepsConstructorsApart

variable {m : Model} {o : Options} {units : List (Node .compilationUnit)}
  {unit : Node .compilationUnit} {c : Candidate}

theorem redirects_self_of_constructUses (h : m.KeepsConstructorsApart units)
    (hm : m.RedirectsOnce) (hunit : unit ∈ units) {n : SomeNode} (hn : n ∈ unit.nodes)
    (hc : c ∈ n.node.constructUses m o) (hr : m.IsRedirect c.target) :
    m.Redirects c.target c.target := by
  refine (Tree.reaches_of_constructUses n.node hc).redirects_self hm h.links ?_ hr
  intro e he
  have hk := Tree.constructorFields_of_constructUses n.node hc
  exact h.mentions unit hunit e (unit.otherMentions_subset (fun _ => false) false hn hk he)

theorem redirects_self_of_candidates (h : m.KeepsConstructorsApart units) (hm : m.RedirectsOnce)
    (hunit : unit ∈ units) (hc : c ∈ unit.candidates m o) (hr : m.IsRedirect c.target) :
    m.Redirects c.target c.target := by
  obtain ⟨⟨n⟩, hn, claimed, hc⟩ := mem_offers hc
  rename_i k
  by_cases hk : k = .simpleIdentifier
  · subst hk
    simp only [SomeNode.shown] at hc
    split at hc
    · cases hc
    · exact absurd hr.isConstructor (Tree.not_isConstructor_of_referenceUses hc)
  · rw [SomeNode.shown_of_ne m o claimed n hk] at hc
    exact h.redirects_self_of_constructUses hm hunit hn hc hr

end Model.KeepsConstructorsApart

namespace SomeNode

variable {m : Model} {n : SomeNode} {e r : ElementId}

theorem shown_of_constructorMention? {mention : ConstructorMention}
    (h : n.constructorMention? = some mention) (o : Options) (claimed : List UInt32) :
    n.shown m o claimed = Candidate.ofConstructor m mention := by
  obtain ⟨n⟩ := n
  rename_i k
  cases k with
  | constructorName | redirectingConstructorInvocation | superConstructorInvocation =>
    obtain rfl := Option.some.inj h
    rfl
  | _ => cases h

/-- A mention of a redirect is a use of the constructor behind it. -/
theorem indexedUses_shown_of_redirects {mention : ConstructorMention}
    (h : n.constructorMention? = some mention) (he : mention.target = some e)
    (hr : m.Redirects e r) (o : Options) (claimed : List UInt32) :
    m.indexedUses (n.shown m o claimed) =
      if m.isIndexed r then [⟨r, .isReferencedBy, mention.location⟩] else [] := by
  have hshown : n.shown m o claimed = [⟨r, .isReferencedBy, mention.location⟩] := by
    rw [shown_of_constructorMention? h, Candidate.ofConstructor, he, Option.map_some,
      hr.redirectTarget]
    rfl
  rw [hshown, Model.indexedUses, List.filter_singleton, cond_eq_ite]

/-- The name of a constructor is no use on top of that. -/
theorem shown_eq_nil_of_isConstructor {i : Identifier} (h : n.reference? = some i)
    (he : i.element = some e) (hc : m.IsConstructor e) (o : Options) (claimed : List UInt32) :
    n.shown m o claimed = [] := by
  obtain ⟨n⟩ := n
  rename_i k
  by_cases hk : k = .simpleIdentifier
  · subst hk
    obtain rfl := Option.some.inj h
    obtain ⟨element, hget, hkind⟩ := hc
    have hreference : n.referenceUses m = [] := by
      simp [Tree.referenceUses, he, hget, hkind, ElementKind.isReferenceable]
    simp only [shown, hreference, ite_self]
  · rw [reference?_eq_none n hk] at h
    cases h

end SomeNode

end UsageIndex
