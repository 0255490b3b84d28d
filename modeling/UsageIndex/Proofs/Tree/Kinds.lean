import UsageIndex.Proofs.Unit.Offers

/-!
Which kinds of nodes a tree can have. This is read off its form: if the kinds that a form names
are closed under the forms of these kinds, a tree of the form has nodes of no other kind.
-/

set_option autoImplicit false

namespace UsageIndex

namespace Form

/-- Whether all nodes that a form names are of these kinds. -/
def within (kinds : NodeKind → Bool) : Form → Bool
  | .node k => kinds k
  | .optional f => f.within kinds
  | .many f => f.within kinds
  | .slot _ _ f rest => f.within kinds && rest.within kinds
  | .either _ f rest => f.within kinds && rest.within kinds
  | _ => true

end Form

namespace Tree

variable {kinds : NodeKind → Bool}

theorem kind_of_mem_nodes (hclosed : ∀ k, kinds k = true → k.form.within kinds = true)
    {f : Form} (t : Tree f) (hf : f.within kinds = true) {n : SomeNode} (hn : n ∈ t.nodes) :
    kinds n.kind = true := by
  induction t with
  | node k body ih =>
    rcases List.mem_cons.1 hn with rfl | hbody
    · exact hf
    · exact ih (hclosed k hf) hbody
  | present t ih => exact ih hf hn
  | cons x xs ihx ihxs =>
    rcases List.mem_append.1 hn with hx | hxs
    · exact ihx hf hx
    · exact ihxs hf hxs
  | slot x xs ihx ihxs =>
    obtain ⟨hfx, hfxs⟩ := Bool.and_eq_true_iff.1 hf
    rcases List.mem_append.1 hn with hx | hxs
    · exact ihx hfx hx
    · exact ihxs hfxs hxs
  | here t ih => exact ih (Bool.and_eq_true_iff.1 hf).1 hn
  | there t ih => exact ih (Bool.and_eq_true_iff.1 hf).2 hn
  | _ => cases hn

theorem nodes_eq_nil {f : Form} (t : Tree f) (hf : f.within (fun _ => false) = true) :
    t.nodes = [] := by
  rw [List.eq_nil_iff_forall_not_mem]
  intro n hn
  cases t.kind_of_mem_nodes (fun _ hk => Bool.noConfusion hk) hf hn

end Tree

end UsageIndex
