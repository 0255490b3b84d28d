import UsageIndex.Proofs.Unit.Classification

/-!
Claims do not outlive the construct that makes them. The names that a construct speaks for are
references inside it, so all its claims are used up when the walk is through with it, be there
references at the same offset or not; what is left of the claims made before is settled by the
references alone. A reference that is passed over lies inside a construct that claims its offset.
-/

set_option autoImplicit false

namespace UsageIndex

namespace Contributor

def visitAll (m : Model) (o : Options) (c : Contributor) (ns : List SomeNode) : Contributor :=
  ns.foldl (fun c n => c.visit m o n.node) c

/-- There is a claim at the offset of the reference, which a visit to the reference uses up
instead of recording anything. -/
def Suppresses (c : Contributor) (n : Node .simpleIdentifier) : Prop :=
  n.reference.offset ∈ c.claimed

instance (c : Contributor) (n : Node .simpleIdentifier) : Decidable (c.Suppresses n) :=
  inferInstanceAs (Decidable (n.reference.offset ∈ c.claimed))

theorem recording_visit (c : Contributor) (m : Model) (o : Options) (n : Node .simpleIdentifier) :
    (c.Suppresses n → (c.visit m o n).recording = c.recording) ∧
      (¬ c.Suppresses n →
        (c.visit m o n).recording = c.recording.addAll m (n.referenceUses m)) := by
  simp only [visit, visitReference, Suppresses]
  split
  · rename_i hclaimed
    exact ⟨fun _ => rfl, fun hfree => absurd hclaimed hfree⟩
  · rename_i hfree
    exact ⟨fun hclaimed => absurd hclaimed hfree, fun _ => rfl⟩

theorem claimed_visitAll (m : Model) (o : Options) (c : Contributor) (ns : List SomeNode) :
    (c.visitAll m o ns).claimed = ns.foldl SomeNode.claimedBehind c.claimed := by
  rw [visitAll, Recording.foldl_visit]

theorem visitAll_append (m : Model) (o : Options) (c : Contributor) (ns ns' : List SomeNode) :
    c.visitAll m o (ns ++ ns') = (c.visitAll m o ns).visitAll m o ns' :=
  List.foldl_append

/-- The walk visits all nodes of a tree in source order, whatever it meets. -/
theorem walk_eq_visitAll (m : Model) (o : Options) {f : Form} (t : Tree f) (c : Contributor) :
    t.walk (visitor m o) c = (.finished, c.visitAll m o t.nodes) :=
  Tree.walk_eq_foldl (visitor m o) (fun c n => c.visit m o n.node) (fun _ _ => rfl)
    (fun _ _ => rfl) t c

theorem mem_claimed_visitAll_nodes (m : Model) (o : Options) {f : Form} (t : Tree f)
    (c : Contributor) (a : UInt32) :
    a ∈ (c.visitAll m o t.nodes).claimed ↔
      a ∈ c.claimed ∧ a ∉ t.references.map Identifier.offset := by
  rw [claimed_visitAll]
  exact t.mem_foldl_claimedBehind c.claimed a

end Contributor

theorem mem_foldl_claimedBehind_congr {claimed claimed' : List UInt32} {a : UInt32}
    (h : a ∈ claimed ↔ a ∈ claimed') (ns : List SomeNode) :
    a ∈ ns.foldl SomeNode.claimedBehind claimed ↔ a ∈ ns.foldl SomeNode.claimedBehind claimed' := by
  induction ns generalizing claimed claimed' with
  | nil => exact h
  | cons n ns ih =>
    refine ih ?_
    unfold SomeNode.claimedBehind
    cases n.reference? with
    | some i => simp only [List.mem_filter, h]
    | none => simp only [List.mem_append, h]

/-- A claim that is still there was there from the start, or was made by one of the nodes; no
reference has come since. -/
theorem exists_claim_of_mem {ns : List SomeNode} {claimed : List UInt32} {a : UInt32}
    (h : a ∈ ns.foldl SomeNode.claimedBehind claimed) :
    a ∈ claimed ∨ ∃ outer construct inner, ns = outer ++ construct :: inner ∧
      a ∈ construct.node.claims.map Identifier.offset ∧
      a ∉ (inner.filterMap SomeNode.reference?).map Identifier.offset := by
  have hsplit : (a ∈ claimed ∧ a ∉ (ns.filterMap SomeNode.reference?).map Identifier.offset) ∨
      ∃ outer construct inner, ns = outer ++ construct :: inner ∧
        a ∈ construct.node.claims.map Identifier.offset ∧
        a ∉ (inner.filterMap SomeNode.reference?).map Identifier.offset := by
    induction ns generalizing claimed with
    | nil => exact .inl ⟨h, by simp⟩
    | cons n ns ih =>
      rcases ih h with ⟨hmem, hfree⟩ | ⟨outer, construct, inner, rfl, hclaim, hfree⟩
      · rw [SomeNode.claimedBehind] at hmem
        cases hn : n.reference? with
        | some i =>
          simp only [hn, List.mem_filter, bne_iff_ne, ne_eq] at hmem
          simp [hn, hmem, hfree]
        | none =>
          simp only [hn, List.mem_append] at hmem
          rcases hmem with hclaim | hold
          · exact .inr ⟨[], n, ns, rfl, hclaim, hfree⟩
          · simp [hn, hold, hfree]
      · exact .inr ⟨n :: outer, construct, inner, rfl, hclaim, hfree⟩
  exact hsplit.imp_left And.left

theorem split_append {α : Type} {xs ys outer behind : List α} {a : α}
    (h : xs ++ ys = outer ++ a :: behind) :
    (∃ front, xs = outer ++ a :: front ∧ behind = front ++ ys) ∨
      ∃ back, outer = xs ++ back ∧ ys = back ++ a :: behind := by
  rcases List.append_eq_append_iff.1 h with ⟨back, rfl, hys⟩ | ⟨front, rfl, hfront⟩
  · exact .inr ⟨back, rfl, hys⟩
  · cases front with
    | nil => exact .inr ⟨[], by simp, hfront.symm⟩
    | cons b front =>
      obtain ⟨rfl, hbehind⟩ := List.cons.inj hfront
      exact .inl ⟨front, rfl, hbehind⟩

/-- Where the nodes come to this part, all nodes of the part come before any other. -/
def ComesWhole (ns : List SomeNode) (part : SomeNode) : Prop :=
  ∀ outer behind, ns = outer ++ part :: behind → ∃ rest, part :: behind = part.node.nodes ++ rest

theorem ComesWhole.append {ns ns' : List SomeNode} {part : SomeNode} (h : ComesWhole ns part)
    (h' : ComesWhole ns' part) : ComesWhole (ns ++ ns') part := by
  intro outer behind hsplit
  rcases split_append hsplit with ⟨front, hns, rfl⟩ | ⟨back, -, hns'⟩
  · obtain ⟨rest, hrest⟩ := h outer front hns
    exact ⟨rest ++ ns', by rw [← List.append_assoc, ← hrest, List.cons_append]⟩
  · exact h' back behind hns'

theorem Tree.comesWhole_nodes {f : Form} (t : Tree f) (part : SomeNode) :
    ComesWhole t.nodes part := by
  induction t with
  | node k body ih =>
    intro outer behind h
    cases outer with
    | nil =>
      obtain ⟨rfl, rfl⟩ := List.cons.inj h
      exact ⟨[], by simp [nodes]⟩
    | cons _ outer => exact ih outer behind (List.cons.inj h).2
  | present t ih => exact ih
  | cons x xs ihx ihxs => exact ihx.append ihxs
  | slot x xs ihx ihxs => exact ihx.append ihxs
  | here t ih => exact ih
  | there t ih => exact ih
  | _ =>
    intro outer behind h
    simp [nodes] at h

/-- Among the nodes visited so far is a construct that claims this offset and has the node at hand
for one of its parts. -/
def ClaimedAround (visited : List SomeNode) (n : SomeNode) (a : UInt32) : Prop :=
  ∃ outer construct inner rest, visited = outer ++ construct :: inner ∧
    a ∈ construct.node.claims.map Identifier.offset ∧
    construct.node.nodes = construct :: inner ++ n :: rest

/-- A construct claims only offsets of references behind it and inside it. -/
theorem SomeNode.claims_subset_nodes (construct : SomeNode) {inner : List SomeNode}
    (h : construct.node.nodes <+: construct :: inner) :
    construct.node.claims.map Identifier.offset ⊆
      (inner.filterMap SomeNode.reference?).map Identifier.offset := by
  obtain ⟨n⟩ := construct
  cases n with
  | node k body =>
    have hbody : body.nodes <+: inner := (List.prefix_cons_inj _).1 h
    refine List.map_subset _ (List.Subset.trans (Tree.claims_subset body) ?_)
    exact (hbody.sublist.filterMap SomeNode.reference?).subset

theorem claimedAround_of_mem {f : Form} {t : Tree f} {visited : List SomeNode} {n : SomeNode}
    {behind : List SomeNode} (ht : t.nodes = visited ++ n :: behind) {claimed : List UInt32}
    {a : UInt32} (h : a ∈ visited.foldl SomeNode.claimedBehind claimed) :
    a ∈ claimed ∨ ClaimedAround visited n a := by
  rcases exists_claim_of_mem h with hold | ⟨outer, construct, inner, rfl, hclaim, hfree⟩
  · exact .inl hold
  refine .inr ⟨outer, construct, inner, ?_⟩
  rw [List.append_assoc] at ht
  obtain ⟨rest, hrest⟩ := t.comesWhole_nodes construct outer _ ht
  rcases split_append (hrest.symm.trans (List.cons_append ..).symm) with
    ⟨front, hnodes, -⟩ | ⟨back, hback, -⟩
  · exact ⟨front, rfl, hclaim, hnodes⟩
  · -- the construct would end before the node, and its claims with it
    exact absurd (construct.claims_subset_nodes ⟨back, hback.symm⟩ hclaim) hfree

/-- A walk over any tree finishes, whatever is claimed at its start, and leaves of the claims those
at whose offsets the tree has no reference; a unit leaves none. A reference is passed over just if
its offset is claimed. So a reference outside a construct is passed over, or not, as if the walk
had left the construct out, unless the construct has a reference at the same offset; and what is
passed over was claimed at the start or lies in a construct that claims its offset. -/
theorem Contributor.claims_used_up (m : Model) (o : Options) {f : Form} (t : Tree f)
    (c : Contributor) :
    t.walk (visitor m o) c = (.finished, c.visitAll m o t.nodes) ∧
    (∀ a, a ∈ (c.visitAll m o t.nodes).claimed ↔
      a ∈ c.claimed ∧ a ∉ t.references.map Identifier.offset) ∧
    (∀ (unit : Node .compilationUnit) (r : Recording), ∃ c',
      unit.walk (visitor m o) ⟨r, []⟩ = (.finished, c') ∧ r.contribute m o unit = c'.recording ∧
        c'.claimed = []) ∧
    (∀ (c' : Contributor) (n : Node .simpleIdentifier),
      (c'.Suppresses n → (c'.visit m o n).recording = c'.recording) ∧
        (¬ c'.Suppresses n →
          (c'.visit m o n).recording = c'.recording.addAll m (n.referenceUses m))) ∧
    (∀ (visited : List SomeNode) (construct : SomeNode) (between : List SomeNode)
      (n : Node .simpleIdentifier),
      n.reference.offset ∉ construct.node.references.map Identifier.offset →
        ((c.visitAll m o (visited ++ construct.node.nodes ++ between)).Suppresses n ↔
          (c.visitAll m o (visited ++ between)).Suppresses n)) ∧
    ∀ (visited : List SomeNode) (n : Node .simpleIdentifier) (behind : List SomeNode),
      t.nodes = visited ++ ⟨n⟩ :: behind → (c.visitAll m o visited).Suppresses n →
        n.reference.offset ∈ c.claimed ∨ ClaimedAround visited ⟨n⟩ n.reference.offset := by
  refine ⟨walk_eq_visitAll m o t c, mem_claimed_visitAll_nodes m o t c, ?_,
    fun c' n => c'.recording_visit m o n, ?_, ?_⟩
  · intro unit r
    have hwalk := walk_eq_visitAll m o unit ⟨r, []⟩
    refine ⟨_, hwalk, by rw [Recording.contribute, hwalk], ?_⟩
    refine List.eq_nil_iff_forall_not_mem.2 fun a ha => ?_
    cases ((mem_claimed_visitAll_nodes m o unit ⟨r, []⟩ a).1 ha).1
  · intro visited construct between n hfree
    rw [visitAll_append, visitAll_append, visitAll_append, Suppresses, Suppresses,
      claimed_visitAll, claimed_visitAll m o (c.visitAll m o visited) between]
    refine mem_foldl_claimedBehind_congr ?_ between
    rw [mem_claimed_visitAll_nodes]
    exact and_iff_left hfree
  · intro visited n behind ht hsuppressed
    rw [Suppresses, claimed_visitAll] at hsuppressed
    exact claimedAround_of_mem ht hsuppressed

namespace Sample

def collidingUnit : Node .compilationUnit :=
  unit ⟨4⟩ ⟨⟨"B", 6⟩, some ⟨5⟩⟩ ⟨⟨"A", 16⟩, some ⟨2⟩⟩ ⟨⟨"A", 16⟩, some ⟨2⟩⟩

end Sample

/-- The class claims the offset of its superclass; the superclass uses the claim up, its argument
at the same offset is recorded, and nothing stays claimed. -/
theorem Contributor.claims_used_up_sample :
    ∃ (visited : List SomeNode) (superclass argument : Node .simpleIdentifier),
      Sample.collidingUnit.nodes = visited ++ ⟨superclass⟩ :: [⟨.simpleType
        ⟨⟨"A", 16⟩, some ⟨2⟩⟩⟩, ⟨argument⟩] ∧
      superclass.reference.offset = argument.reference.offset ∧
      ClaimedAround visited ⟨superclass⟩ 16 ∧
      ((⟨⟨{}, { key := ⟨⟨0⟩, ⟨0⟩⟩ }, []⟩, []⟩ : Contributor).visitAll Sample.model {}
        Sample.collidingUnit.nodes).claimed = [] := by
  obtain ⟨-, hleft, -, -, -, haround⟩ := claims_used_up Sample.model {} Sample.collidingUnit
    ⟨⟨{}, { key := ⟨⟨0⟩, ⟨0⟩⟩ }, []⟩, []⟩
  have hsuperclass := haround (Sample.collidingUnit.nodes.take 6)
    (.simpleIdentifier ⟨⟨"A", 16⟩, some ⟨2⟩⟩) _ rfl (by decide +kernel)
  refine ⟨_, .simpleIdentifier ⟨⟨"A", 16⟩, some ⟨2⟩⟩, .simpleIdentifier ⟨⟨"A", 16⟩, some ⟨2⟩⟩,
    rfl, rfl, hsuperclass.resolve_left (by decide), ?_⟩
  refine List.eq_nil_iff_forall_not_mem.2 fun a ha => ?_
  cases ((hleft a).1 ha).1

end UsageIndex
