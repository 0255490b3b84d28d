import UsageIndex.Proofs.Tree.Calls
import UsageIndex.Proofs.Unit.Offers
import UsageIndex.Tree.Build

/-!
A walk that is never stopped brackets its nodes. Every node entered is left, and what is entered
in between is left before; a node passed over is left at once, any other after the brackets of its
children. If the answers depend on the nodes alone, the walk is the full one with the insides of
the skipped brackets taken out.
-/

set_option autoImplicit false

namespace UsageIndex

variable {σ : Type}

/-- Steps in which every node entered is left, after all that is entered in between. -/
inductive WellNested : List Step → Prop where
  | nil : WellNested []
  | bracket {k : NodeKind} (n : Node k) {inner rest : List Step} :
      WellNested inner → WellNested rest → WellNested (.enter n :: (inner ++ .leave n :: rest))

/-- How many nodes are open behind some steps, unless one is left while none is open. -/
def openBehind? : Nat → List Step → Option Nat
  | depth, [] => some depth
  | depth, .enter _ :: rest => openBehind? (depth + 1) rest
  | 0, .leave _ :: _ => none
  | depth + 1, .leave _ :: rest => openBehind? depth rest

namespace WellNested

variable {steps inner rest before after : List Step} {k : NodeKind} {n : Node k}

theorem append (h : WellNested steps) (h' : WellNested rest) : WellNested (steps ++ rest) := by
  induction h with
  | nil => exact h'
  | bracket n hinner hrest ihinner ihrest => simpa using bracket n hinner ihrest

theorem openBehind?_append (h : WellNested steps) (depth : Nat) (more : List Step) :
    openBehind? depth (steps ++ more) = openBehind? depth more := by
  induction h generalizing depth more with
  | nil => rfl
  | bracket n hinner hrest ihinner ihrest => simp [openBehind?, ihinner, ihrest]

theorem not_leave (h : WellNested inner) : ¬ WellNested (inner ++ .leave n :: rest) := by
  intro hall
  have hopen := hall.openBehind?_append 0 []
  simp [h.openBehind?_append, openBehind?] at hopen

theorem exists_leave (h : WellNested steps) (hsteps : steps = before ++ .enter n :: after) :
    ∃ inner rest, after = inner ++ .leave n :: rest ∧ WellNested inner := by
  induction h generalizing before after with
  | nil => simp at hsteps
  | @bracket j m inside outside hinside houtside ihinside ihoutside =>
    cases before with
    | nil =>
      obtain ⟨hm, rfl⟩ := List.cons.inj hsteps
      obtain ⟨rfl, hm⟩ := Step.enter.inj hm
      obtain rfl := eq_of_heq hm
      exact ⟨inside, outside, rfl, hinside⟩
    | cons step before =>
      -- The node is entered behind the end of the first bracket or inside it.
      obtain ⟨-, htail⟩ := List.cons.inj hsteps
      rcases List.append_eq_append_iff.1 htail with ⟨gap, rfl, hgap⟩ | ⟨gap, rfl, hgap⟩
      · cases gap with
        | nil => simp at hgap
        | cons step gap => exact ihoutside (List.cons.inj hgap).2
      · cases gap with
        | nil => simp at hgap
        | cons step gap =>
          obtain ⟨rfl, rfl⟩ := List.cons.inj hgap
          obtain ⟨inner, rest, rfl, hinner⟩ := ihinside rfl
          exact ⟨inner, rest ++ .leave m :: outside, by simp, hinner⟩

theorem leave_unique {j : NodeKind} {m : Node j} {inner' rest' : List Step}
    (h : WellNested inner) (h' : WellNested inner')
    (heq : inner ++ .leave n :: rest = inner' ++ .leave m :: rest') :
    inner = inner' ∧ rest = rest' := by
  rcases List.append_eq_append_iff.1 heq with ⟨gap, rfl, hgap⟩ | ⟨gap, rfl, hgap⟩
  · cases gap with
    | nil => exact ⟨by simp, (List.cons.inj hgap).2⟩
    | cons step gap =>
      obtain ⟨rfl, -⟩ := List.cons.inj hgap
      exact absurd h' h.not_leave
  · cases gap with
    | nil => exact ⟨by simp, (List.cons.inj hgap).2.symm⟩
    | cons step gap =>
      obtain ⟨rfl, -⟩ := List.cons.inj hgap
      exact absurd h h'.not_leave

end WellNested

/-- Each node entered has exactly one step that matches it: the first one behind well-nested
steps that leaves a node, and it leaves the same one. -/
def EachMatched (steps : List Step) : Prop :=
  ∀ {k : NodeKind} (n : Node k) (before after : List Step), steps = before ++ .enter n :: after →
    ∃ inner rest, after = inner ++ .leave n :: rest ∧ WellNested inner ∧
      ∀ {j : NodeKind} (m : Node j) (inner' rest' : List Step),
        after = inner' ++ .leave m :: rest' → WellNested inner' → inner' = inner ∧ rest' = rest

theorem WellNested.eachMatched {steps : List Step} (h : WellNested steps) : EachMatched steps := by
  intro k n before after hsteps
  obtain ⟨inner, rest, rfl, hinner⟩ := h.exists_leave hsteps
  refine ⟨inner, rest, rfl, hinner, ?_⟩
  intro j m inner' rest' hafter hinner'
  exact hinner'.leave_unique hinner hafter.symm

/-- The nodes of a tree that lie in no other node of it, in source order. -/
def Tree.outermost {f : Form} : Tree f → List SomeNode
  | .token _ => []
  | .element _ => []
  | .node k body => [⟨.node k body⟩]
  | .absent => []
  | .present t => t.outermost
  | .nil => []
  | .cons x xs => x.outermost ++ xs.outermost
  | .nothing => []
  | .done => []
  | .slot x xs => x.outermost ++ xs.outermost
  | .here t => t.outermost
  | .there t => t.outermost

def Tree.children {k : NodeKind} : Node k → List SomeNode
  | .node _ body => body.outermost

namespace Visitor

/-- The calls for some nodes, one after the other, from a state to a state: a node passed over is
left at once, any other after the calls for its children. -/
inductive Brackets (v : Visitor σ) : List SomeNode → σ → List (Call σ) → σ → Prop where
  | nil (s : σ) : Brackets v [] s [] s
  | skipped {n : SomeNode} {ns : List SomeNode} {s s₁ s₂ : σ} {calls : List (Call σ)} :
      v.enter n.node s = (.skipParts, s₁) → Brackets v ns (v.leave n.node s₁) calls s₂ →
      Brackets v (n :: ns) s (⟨.enter n.node, s⟩ :: ⟨.leave n.node, s₁⟩ :: calls) s₂
  | entered {n : SomeNode} {ns : List SomeNode} {s s₁ s₂ s₃ : σ} {inner calls : List (Call σ)} :
      v.enter n.node s = (.goOn, s₁) → Brackets v n.node.children s₁ inner s₂ →
      Brackets v ns (v.leave n.node s₂) calls s₃ →
      Brackets v (n :: ns) s (⟨.enter n.node, s⟩ :: (inner ++ ⟨.leave n.node, s₂⟩ :: calls)) s₃

theorem Brackets.append {v : Visitor σ} {ns ns' : List SomeNode} {s s₁ s₂ : σ}
    {calls calls' : List (Call σ)} (h : v.Brackets ns s calls s₁)
    (h' : v.Brackets ns' s₁ calls' s₂) : v.Brackets (ns ++ ns') s (calls ++ calls') s₂ := by
  induction h with
  | nil s => exact h'
  | skipped henter hrest ih => exact .skipped henter (ih h')
  | entered henter hinner hrest ihinner ihrest => simpa using .entered henter hinner (ihrest h')

theorem Brackets.wellNested {v : Visitor σ} {ns : List SomeNode} {s s₁ : σ}
    {calls : List (Call σ)} (h : v.Brackets ns s calls s₁) : WellNested (calls.map Call.step) := by
  induction h with
  | nil s => exact .nil
  | skipped henter hrest ih => exact .bracket _ .nil ih
  | entered henter hinner hrest ihinner ihrest => simpa using .bracket _ ihinner ihrest

end Visitor

def Stretch.Covers (v : Visitor σ) (stretch : Stretch σ) (ns : List SomeNode) : Prop :=
  ∀ s, ∃ last calls, stretch s = ((.finished, last), calls) ∧ v.Brackets ns s calls last

namespace Stretch.Covers

variable {v : Visitor σ} {first second : Stretch σ} {ns ns' : List SomeNode}

theorem idle : Covers v Stretch.idle [] := fun s => ⟨s, [], rfl, .nil s⟩

theorem andThen (h : Covers v first ns) (h' : Covers v second ns') :
    Covers v (first.andThen second) (ns ++ ns') := by
  intro s
  obtain ⟨last, calls, hfirst, hbrackets⟩ := h s
  obtain ⟨last', calls', hsecond, hbrackets'⟩ := h' last
  exact ⟨last', calls ++ calls', by simp [Stretch.andThen, hfirst, hsecond],
    hbrackets.append hbrackets'⟩

theorem around {k : NodeKind} (n : Node k) (hn : ∀ s, (v.enter n s).1 ≠ .stop)
    (h : Covers v first n.children) : Covers v (v.around n first) [⟨n⟩] := by
  intro s
  cases he : v.enter n s with
  | mk answer s₁ =>
    cases answer with
    | stop => exact absurd (by rw [he]) (hn s)
    | skipParts =>
      refine ⟨v.leave n s₁, _, ?_, .skipped he (.nil _)⟩
      simp [Visitor.around, he, Visitor.leaving]
    | goOn =>
      obtain ⟨last, calls, hparts, hbrackets⟩ := h s₁
      refine ⟨v.leave n last, _, ?_, .entered he hbrackets (.nil _)⟩
      simp [Visitor.around, he, Stretch.andThen, hparts, Visitor.leaving]

end Stretch.Covers

theorem Tree.covers_stretch {v : Visitor σ}
    (hv : ∀ {k : NodeKind} (n : Node k) (s : σ), (v.enter n s).1 ≠ .stop)
    {f : Form} (t : Tree f) : Stretch.Covers v (t.stretch v) t.outermost := by
  induction t with
  | node k body ih => exact ih.around (.node k body) (hv _)
  | present t ih => exact ih
  | cons x xs ihx ihxs => exact ihx.andThen ihxs
  | slot x xs ihx ihxs => exact ihx.andThen ihxs
  | here t ih => exact ih
  | there t ih => exact ih
  | _ => exact .idle

/-- The steps without those strictly inside the brackets of certain nodes. `hidden` is how many
nodes are open from the last such node on, itself included. -/
def pruned (skips : SomeNode → Bool) : (hidden : Nat) → List Step → List Step
  | _, [] => []
  | 0, .enter n :: rest => .enter n :: pruned skips (if skips ⟨n⟩ then 1 else 0) rest
  | 0, .leave n :: rest => .leave n :: pruned skips 0 rest
  | hidden + 1, .enter _ :: rest => pruned skips (hidden + 2) rest
  | 1, .leave n :: rest => .leave n :: pruned skips 0 rest
  | hidden + 2, .leave _ :: rest => pruned skips (hidden + 1) rest

theorem WellNested.pruned_append {steps : List Step} (h : WellNested steps)
    (skips : SomeNode → Bool) (hidden : Nat) (more : List Step) :
    pruned skips (hidden + 1) (steps ++ more) = pruned skips (hidden + 1) more := by
  induction h generalizing hidden more with
  | nil => rfl
  | bracket n hinner hrest ihinner ihrest => simp [pruned, ihinner, ihrest]

namespace Visitor

def straight : Visitor Unit where
  enter := fun _ _ => (.goOn, ())
  leave := fun _ _ => ()

/-- The brackets under answers that depend on the nodes alone are those of the full walk, less
what lies inside the skipped ones. -/
theorem Brackets.pruned_straight {v : Visitor σ} {answer : SomeNode → Answer}
    (hv : ∀ n s, (v.enter n.node s).1 = answer n) {ns : List SomeNode} {s s₁ : σ}
    {calls : List (Call σ)} (h : v.Brackets ns s calls s₁) {full : List (Call Unit)}
    (hfull : straight.Brackets ns () full ()) (more : List Step) :
    pruned (answer · == .skipParts) 0 (full.map Call.step ++ more) =
      calls.map Call.step ++ pruned (answer · == .skipParts) 0 more := by
  induction h generalizing full more with
  | nil s =>
    cases hfull
    rfl
  | @skipped n _ s _ _ _ henter hrest ih =>
    cases hfull with
    | skipped hgo => cases hgo
    | entered _ hinner hbehind =>
      have hskip : answer n = .skipParts := by rw [← hv n s, henter]
      simp [pruned, hskip, hinner.wellNested.pruned_append, ih hbehind]
  | @entered n _ s _ _ _ _ _ henter hinner hrest ihinner ihrest =>
    cases hfull with
    | skipped hgo => cases hgo
    | entered _ hinside hbehind =>
      have hgo : answer n = .goOn := by rw [← hv n s, henter]
      simp [pruned, hgo, ihinner hinside, ihrest hbehind]

end Visitor

def Tree.steps (v : Visitor σ) {f : Form} (t : Tree f) (s : σ) : List Step :=
  (t.calls v s).map Call.step

theorem Tree.brackets_calls {v : Visitor σ}
    (hv : ∀ {k : NodeKind} (n : Node k) (s : σ), (v.enter n s).1 ≠ .stop)
    {k : NodeKind} (n : Node k) (s : σ) :
    v.Brackets [⟨n⟩] s (n.calls v s) (n.walk v s).2 := by
  obtain ⟨last, calls, hstretch, hbrackets⟩ := n.covers_stretch hv s
  rw [calls_eq_stretch, walk_eq_stretch, hstretch]
  cases n with
  | node k body => exact hbrackets

/-- A walk without a stop is the well-nested brackets of its nodes, each with one matching end:
a node passed over is left at once, any other after its children. Where the answers depend on the
nodes alone, it is the full walk less what is inside the skipped brackets. -/
theorem Tree.walk_brackets {v : Visitor σ}
    (hv : ∀ {k : NodeKind} (n : Node k) (s : σ), (v.enter n s).1 ≠ .stop)
    {k : NodeKind} (n : Node k) (s : σ) :
    v.Brackets [⟨n⟩] s (n.calls v s) (n.walk v s).2 ∧
      WellNested (n.steps v s) ∧ EachMatched (n.steps v s) ∧
      ∀ answer : SomeNode → Answer, (∀ m s, (v.enter m.node s).1 = answer m) →
        n.steps v s = pruned (answer · == .skipParts) 0 (n.steps .straight ()) := by
  have hbrackets := n.brackets_calls hv s
  refine ⟨hbrackets, hbrackets.wellNested, hbrackets.wellNested.eachMatched, ?_⟩
  intro answer hanswer
  have hfull := n.brackets_calls (v := .straight) (fun _ _ => nofun) ()
  have hpruned := hbrackets.pruned_straight hanswer hfull []
  simp only [List.append_nil, pruned] at hpruned
  exact hpruned.symm

namespace Sample

def genericClause : Node .extendsClause :=
  .node _ (.slot (.token ⟨"extends", 8⟩) (.slot (Tree.withTypeArguments
    (.simpleType ⟨⟨"A", 16⟩, none⟩) [.simpleType ⟨⟨"B", 18⟩, none⟩] 19) .done))

def untyped : Visitor Trace :=
  tracing fun _ k => if k = .typeName then .skipParts else .goOn

theorem untyped_goes_on {k : NodeKind} (n : Node k) (t : Trace) :
    (untyped.enter n t).1 ≠ .stop := by
  simp only [untyped, tracing]
  split <;> decide

end Sample

/-- Of the ten steps over the clause, the six inside the type are taken out. -/
theorem Tree.walk_brackets_sample :
    (∀ {k : NodeKind} (n : Node k) (t : Trace), (Sample.untyped.enter n t).1 ≠ .stop) ∧
      Sample.untyped.Brackets [⟨Sample.genericClause⟩] {}
        (Sample.genericClause.calls Sample.untyped {})
        (Sample.genericClause.walk Sample.untyped {}).2 ∧
      EachMatched (Sample.genericClause.steps Sample.untyped {}) ∧
      Sample.genericClause.steps Sample.untyped {} =
        pruned (fun m => (if m.kind = .typeName then Answer.skipParts else .goOn) == .skipParts) 0
          (Sample.genericClause.steps .straight ()) ∧
      (Sample.genericClause.steps .straight ()).length = 10 ∧
      (Sample.genericClause.steps Sample.untyped {}).length = 4 := by
  obtain ⟨hbrackets, -, hmatched, hpruned⟩ :=
    walk_brackets Sample.untyped_goes_on Sample.genericClause {}
  exact ⟨Sample.untyped_goes_on, hbrackets, hmatched, hpruned _ fun _ _ => rfl, rfl, rfl⟩

end UsageIndex
