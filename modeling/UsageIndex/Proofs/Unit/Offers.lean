import UsageIndex.Unit.Contribution

/-!
What a unit offers to an index does not depend on what has been recorded so far. The walk over
a unit is a fold over its nodes in source order, and the uses met on the way can be listed
without a recording: a unit's contribution is this list, added from first to last.
-/

set_option autoImplicit false

namespace UsageIndex

structure SomeNode where
  {kind : NodeKind}
  node : Node kind

/-- The nodes of a tree in source order, each before its parts. -/
def Tree.nodes {f : Form} : Tree f → List SomeNode
  | .token _ => []
  | .element _ => []
  | .node k body => ⟨.node k body⟩ :: body.nodes
  | .absent => []
  | .present t => t.nodes
  | .nil => []
  | .cons x xs => x.nodes ++ xs.nodes
  | .nothing => []
  | .done => []
  | .slot x xs => x.nodes ++ xs.nodes
  | .here t => t.nodes
  | .there t => t.nodes

/-- A visitor that always goes on and does nothing on leaving folds over the nodes. -/
theorem Tree.walk_eq_foldl {σ : Type} (v : Visitor σ) (step : σ → SomeNode → σ)
    (henter : ∀ {k : NodeKind} (n : Node k) (s : σ), v.enter n s = (.goOn, step s ⟨n⟩))
    (hleave : ∀ {k : NodeKind} (n : Node k) (s : σ), v.leave n s = s)
    {f : Form} (t : Tree f) (s : σ) :
    t.walk v s = (.finished, t.nodes.foldl step s) := by
  induction t generalizing s with
  | node k body ih => simp [walk, nodes, henter, hleave, ih]
  | present t ih => exact ih s
  | cons x xs ihx ihxs => simp [walk, nodes, ihx, ihxs]
  | slot x xs ihx ihxs => simp [walk, nodes, ihx, ihxs]
  | here t ih => exact ih s
  | there t ih => exact ih s
  | _ => rfl

namespace SomeNode

def reference? (n : SomeNode) : Option Identifier :=
  match n.kind, n.node with
  | .simpleIdentifier, node => some node.reference
  | _, _ => none

/-- The uses that a node shows where `claimed` identifiers are spoken for. -/
def shown (m : Model) (o : Options) (claimed : List UInt32) (n : SomeNode) : List Candidate :=
  match n.kind, n.node with
  | .simpleIdentifier, node =>
    if node.reference.offset ∈ claimed then [] else node.referenceUses m
  | _, node => node.constructUses m o

/-- What is spoken for behind a node: a construct adds claims, a reference uses its own up. -/
def claimedBehind (claimed : List UInt32) (n : SomeNode) : List UInt32 :=
  match n.reference? with
  | some i => claimed.filter (· != i.offset)
  | none => n.node.claims.map Identifier.offset ++ claimed

theorem reference?_eq_none {k : NodeKind} (n : Node k) (h : k ≠ .simpleIdentifier) :
    (⟨n⟩ : SomeNode).reference? = none := by
  unfold reference?
  split
  · contradiction
  · rfl

theorem shown_of_ne (m : Model) (o : Options) (claimed : List UInt32) {k : NodeKind} (n : Node k)
    (h : k ≠ .simpleIdentifier) : (⟨n⟩ : SomeNode).shown m o claimed = n.constructUses m o := by
  unfold shown
  split
  · contradiction
  · rfl

end SomeNode

namespace Contributor

theorem visit_of_ne (c : Contributor) (m : Model) (o : Options) {k : NodeKind} (n : Node k)
    (h : k ≠ .simpleIdentifier) :
    c.visit m o n = (c.record m (n.constructUses m o)).claim n.claims := by
  unfold visit
  split
  · contradiction
  · rfl

theorem visit_eq (c : Contributor) (m : Model) (o : Options) (n : SomeNode) :
    c.visit m o n.node =
      ⟨c.recording.addAll m (n.shown m o c.claimed), n.claimedBehind c.claimed⟩ := by
  obtain ⟨n⟩ := n
  rename_i k
  by_cases hk : k = .simpleIdentifier
  · subst hk
    simp only [visit, visitReference, SomeNode.shown, SomeNode.claimedBehind,
      SomeNode.reference?]
    split
    · rfl
    · rename_i hfree
      -- Nothing is claimed at this offset, so there is nothing to use up.
      have hkeep : c.claimed.filter (· != n.reference.offset) = c.claimed := by
        rw [List.filter_eq_self]
        intro a ha
        have hne : a ≠ n.reference.offset := by
          intro he
          exact hfree (he ▸ ha)
        simpa using hne
      rw [hkeep]
      rfl
  · rw [visit_of_ne c m o n hk, SomeNode.shown_of_ne m o c.claimed n hk]
    simp [record, claim, SomeNode.claimedBehind, SomeNode.reference?_eq_none n hk]

end Contributor

def offers (m : Model) (o : Options) : List SomeNode → List UInt32 → List Candidate
  | [], _ => []
  | n :: rest, claimed => n.shown m o claimed ++ offers m o rest (n.claimedBehind claimed)

theorem offers_append (m : Model) (o : Options) (ns ns' : List SomeNode) (claimed : List UInt32) :
    offers m o (ns ++ ns') claimed =
      offers m o ns claimed ++ offers m o ns' (ns.foldl SomeNode.claimedBehind claimed) := by
  induction ns generalizing claimed with
  | nil => rfl
  | cons n ns ih => simp [offers, ih, List.append_assoc]

namespace Recording

theorem addAll_append (r : Recording) (m : Model) (cs cs' : List Candidate) :
    r.addAll m (cs ++ cs') = (r.addAll m cs).addAll m cs' := by
  simp [addAll]

theorem foldl_visit (m : Model) (o : Options) (ns : List SomeNode) (c : Contributor) :
    ns.foldl (fun c n => c.visit m o n.node) c =
      ⟨c.recording.addAll m (offers m o ns c.claimed),
        ns.foldl SomeNode.claimedBehind c.claimed⟩ := by
  induction ns generalizing c with
  | nil => rfl
  | cons n ns ih =>
    rw [List.foldl_cons, ih, Contributor.visit_eq]
    simp [offers, addAll_append]

end Recording

/-- All uses that a unit offers, in source order. -/
def Tree.candidates (m : Model) (o : Options) (unit : Node .compilationUnit) : List Candidate :=
  offers m o unit.nodes []

/-- What is recorded before has no part in what a unit offers. -/
theorem Recording.contribute_eq (r : Recording) (m : Model) (o : Options)
    (unit : Node .compilationUnit) :
    r.contribute m o unit = r.addAll m (unit.candidates m o) := by
  have hwalk := Tree.walk_eq_foldl (Contributor.visitor m o)
    (fun c n => c.visit m o n.node) (fun _ _ => rfl) (fun _ _ => rfl) unit ⟨r, []⟩
  rw [contribute, hwalk, foldl_visit]
  rfl

end UsageIndex
