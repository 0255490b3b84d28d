import UsageIndex.Proofs.Unit.Redirects

/-!
The elements that stand in a tree. A use is of one of them, or of an element that the model links
to another; so a unit over a model without such links uses only what stands in it.
-/

set_option autoImplicit false

namespace UsageIndex

namespace Tree

def elements {f : Form} : Tree f → List ElementId
  | .token _ => []
  | .element e => [e]
  | .node _ body => body.elements
  | .absent => []
  | .present t => t.elements
  | .nil => []
  | .cons x xs => x.elements ++ xs.elements
  | .nothing => []
  | .done => []
  | .slot x xs => x.elements ++ xs.elements
  | .here t => t.elements
  | .there t => t.elements

theorem otherMentions_subset_elements {f : Form} (t : Tree f) (fields : String → Bool)
    (named : Bool) : t.otherMentions fields named ⊆ t.elements := by
  induction t generalizing fields named with
  | element e =>
    cases named with
    | true => exact List.nil_subset _
    | false => exact List.Subset.refl _
  | node k body ih => exact ih _ _
  | present t ih => exact ih fields named
  | cons x xs ihx ihxs => exact append_subset_append (ihx _ _) (ihxs _ _)
  | slot x xs ihx ihxs => exact append_subset_append (ihx _ _) (ihxs _ _)
  | here t ih => exact ih fields named
  | there t ih => exact ih fields named
  | _ => exact List.nil_subset _

theorem elements_subset_of_mem_nodes {f : Form} (t : Tree f) {n : SomeNode} (hn : n ∈ t.nodes) :
    n.node.elements ⊆ t.elements := by
  induction t with
  | node k body ih =>
    rcases List.mem_cons.1 hn with rfl | hbody
    · exact List.Subset.refl _
    · exact ih hbody
  | present t ih => exact ih hn
  | cons x xs ihx ihxs =>
    rcases List.mem_append.1 hn with hx | hxs
    · exact List.subset_append_of_subset_left _ (ihx hx)
    · exact List.subset_append_of_subset_right _ (ihxs hxs)
  | slot x xs ihx ihxs =>
    rcases List.mem_append.1 hn with hx | hxs
    · exact List.subset_append_of_subset_left _ (ihx hx)
    · exact List.subset_append_of_subset_right _ (ihxs hxs)
  | here t ih => exact ih hn
  | there t ih => exact ih hn
  | _ => cases hn

theorem PartOf.elements_subset {f g : Form} {part : Tree g} {t : Tree f} {place : Bool}
    {fields : String → Bool} {named : Bool} (h : part.PartOf place t fields named) :
    part.elements ⊆ t.elements := by
  induction h with
  | self => exact List.Subset.refl _
  | first _ ih | head _ ih => exact List.subset_append_of_subset_left _ ih
  | later _ ih | tail _ ih => exact List.subset_append_of_subset_right _ ih
  | node _ ih | present _ ih | here _ ih | there _ ih => exact ih

end Tree

namespace SomeNode

variable {m : Model} {o : Options} {n : SomeNode} {c : Candidate} {e : ElementId}

theorem mem_elements_of_constructorMention? {mention : ConstructorMention}
    (hn : n.constructorMention? = some mention) (he : e ∈ mention.target) :
    e ∈ n.node.elements := by
  obtain ⟨-, -, target, -, -, htarget, -, -, place, hpart⟩ := parts_of_constructorMention? hn
  rw [htarget] at he
  exact hpart.elements_subset
    (target.otherMentions_subset_elements _ _ (Tree.mem_of_toElement? he))

theorem Reaches.source (h : n.Reaches m e) :
    e ∈ n.node.elements ∨ m.IsLinked e ∨ ∃ source ∈ n.node.elements, m.Redirects source e := by
  cases h with
  | mention h => exact .inl (n.node.otherMentions_subset_elements _ _ h)
  | link h => exact .inr (.inl h)
  | @redirection _ e hn he =>
    have hmem := mem_elements_of_constructorMention? hn he
    by_cases hredirect : m.IsRedirect e
    · obtain ⟨r, hr⟩ := hredirect
      rw [hr.redirectTarget]
      exact .inr (.inr ⟨e, hmem, hr⟩)
    · rw [Model.redirectTarget_eq_self hredirect]
      exact .inl hmem

theorem reaches_of_shown {claimed : List UInt32} (h : c ∈ n.shown m o claimed) :
    n.Reaches m c.target := by
  obtain ⟨n⟩ := n
  rename_i k
  by_cases hk : k = .simpleIdentifier
  · subst hk
    simp only [shown, Tree.referenceUses] at h
    split at h
    · cases h
    · split at h
      · exact Candidate.reaches_of_holds h (Tree.holds_reference n)
      · cases h
  · rw [shown_of_ne m o claimed n hk] at h
    exact Tree.reaches_of_constructUses n h

end SomeNode

/-- What a unit uses stands in it, or is linked to an element of the model. -/
theorem Tree.source_of_candidates {m : Model} {o : Options} {unit : Node .compilationUnit}
    {c : Candidate} (h : c ∈ unit.candidates m o) :
    c.target ∈ unit.elements ∨ m.IsLinked c.target ∨
      ∃ e ∈ unit.elements, m.Redirects e c.target := by
  obtain ⟨n, hn, claimed, hc⟩ := mem_offers h
  have hsubset := unit.elements_subset_of_mem_nodes hn
  rcases (SomeNode.reaches_of_shown hc).source with hmem | hlinked | ⟨e, hmem, hredirects⟩
  · exact .inl (hsubset hmem)
  · exact .inr (.inl hlinked)
  · exact .inr (.inr ⟨e, hsubset hmem, hredirects⟩)

end UsageIndex
