import UsageIndex.Proofs.Tree.Calls

/-!
A visitor that stops cuts a walk off at once. Beside it stands the visitor that goes on instead;
the two walks make the same calls up to the first one that is answered with a stop, and there the
stopped walk ends, in the state right after that call.
-/

set_option autoImplicit false

namespace UsageIndex

variable {σ : Type}

section

variable {α : Type} (p : α → Bool)

/-- The items up to and including the first that passes the test, or all if none does. -/
def throughFirst : List α → List α
  | [] => []
  | a :: rest => if p a then [a] else a :: throughFirst rest

theorem throughFirst_append_of_find? {xs : List α} (ys : List α) {a : α}
    (h : xs.find? p = some a) : throughFirst p (xs ++ ys) = throughFirst p xs := by
  induction xs with
  | nil => simp at h
  | cons x xs ih =>
    by_cases hx : p x = true
    · simp [throughFirst, hx]
    · simp only [List.find?_cons_of_neg hx] at h
      simp [throughFirst, hx, ih h]

theorem throughFirst_append_of_none {xs : List α} (ys : List α) (h : xs.find? p = none) :
    throughFirst p (xs ++ ys) = xs ++ throughFirst p ys := by
  induction xs with
  | nil => rfl
  | cons x xs ih =>
    by_cases hx : p x = true
    · simp [hx] at h
    · simp only [List.find?_cons_of_neg hx] at h
      simp [throughFirst, hx, ih h]

theorem throughFirst_eq_self {xs : List α} (h : xs.find? p = none) : throughFirst p xs = xs := by
  simpa [throughFirst] using throughFirst_append_of_none p [] h

end

def Answer.unstopped : Answer → Answer
  | .stop => .goOn
  | .skipParts => .skipParts
  | .goOn => .goOn

namespace Visitor

/-- The visitor that goes on wherever this one stops. -/
def unstopped (v : Visitor σ) : Visitor σ where
  enter := fun n s => ((v.enter n s).1.unstopped, (v.enter n s).2)
  leave := v.leave

def stopsAt (v : Visitor σ) (c : Call σ) : Bool :=
  match c.step with
  | .enter n => (v.enter n c.state).1 == .stop
  | .leave _ => false

def stateAfter (v : Visitor σ) (c : Call σ) : σ :=
  match c.step with
  | .enter n => (v.enter n c.state).2
  | .leave n => v.leave n c.state

theorem enter_unstopped (v : Visitor σ) {k : NodeKind} (n : Node k) (s : σ) :
    v.unstopped.enter n s = ((v.enter n s).1.unstopped, (v.enter n s).2) := rfl

/-- How a walk ends that is cut off at the first call answered with a stop. -/
def cutOff (v : Visitor σ) (calls : List (Call σ)) (last : σ) : Outcome × σ :=
  match calls.find? v.stopsAt with
  | some c => (.stopped, v.stateAfter c)
  | none => (.finished, last)

theorem name_cutOff (v : Visitor σ) (calls : List (Call σ)) (last : σ) :
    (v.cutOff calls last).1.name =
      if calls.any v.stopsAt then Answer.stop.name else Answer.goOn.name := by
  unfold cutOff
  cases hfind : calls.find? v.stopsAt with
  | some c =>
    have hany : calls.any v.stopsAt = true :=
      List.any_eq_true.2 ⟨c, List.mem_of_find?_eq_some hfind, List.find?_some hfind⟩
    rw [if_pos hany]
    rfl
  | none =>
    have hany : ¬ calls.any v.stopsAt = true := by
      simpa using hfind
    rw [if_neg hany]
    rfl

end Visitor

def Stretch.CutFrom (v : Visitor σ) (cut whole : Stretch σ) : Prop :=
  ∀ s, ∃ last calls, whole s = ((.finished, last), calls) ∧
    cut s = (v.cutOff calls last, throughFirst v.stopsAt calls)

namespace Stretch.CutFrom

variable {v : Visitor σ} {cut cut' whole whole' : Stretch σ}

theorem idle : CutFrom v Stretch.idle Stretch.idle :=
  fun s => ⟨s, [], rfl, rfl⟩

theorem leaving (v : Visitor σ) {k : NodeKind} (n : Node k) :
    CutFrom v (v.leaving n) (v.unstopped.leaving n) :=
  fun s => ⟨v.leave n s, [⟨.leave n, s⟩], rfl, rfl⟩

theorem andThen (h : CutFrom v cut whole) (h' : CutFrom v cut' whole') :
    CutFrom v (cut.andThen cut') (whole.andThen whole') := by
  intro s
  obtain ⟨last, calls, hwhole, hcut⟩ := h s
  obtain ⟨last', calls', hwhole', hcut'⟩ := h' last
  refine ⟨last', calls ++ calls', by simp [Stretch.andThen, hwhole, hwhole'], ?_⟩
  cases hfind : calls.find? v.stopsAt with
  | some c =>
    simp [Stretch.andThen, hcut, Visitor.cutOff, hfind, throughFirst_append_of_find? _ _ hfind]
  | none =>
    simp [Stretch.andThen, hcut, hcut', Visitor.cutOff, hfind,
      throughFirst_append_of_none _ _ hfind, throughFirst_eq_self _ hfind]

/-- A stop at the node itself cuts off its parts; any other answer leaves the cut to them. -/
theorem around {k : NodeKind} (n : Node k) (h : CutFrom v cut whole) :
    CutFrom v (v.around n cut) (v.unstopped.around n whole) := by
  intro s
  cases he : v.enter n s with
  | mk answer s₁ =>
    obtain ⟨last, calls, hwhole, hcut⟩ := h.andThen (leaving v n) s₁
    cases answer with
    | stop =>
      have hstop : v.stopsAt ⟨.enter n, s⟩ = true := by simp [Visitor.stopsAt, he]
      refine ⟨last, ⟨.enter n, s⟩ :: calls, ?_, ?_⟩
      · simp [Visitor.around, Visitor.enter_unstopped, he, Answer.unstopped, hwhole]
      · simp [Visitor.around, he, Visitor.cutOff, hstop, throughFirst, Visitor.stateAfter]
    | skipParts =>
      refine ⟨v.leave n s₁, [⟨.enter n, s⟩, ⟨.leave n, s₁⟩], ?_, ?_⟩
      · simp [Visitor.around, Visitor.unstopped, he, Answer.unstopped, Visitor.leaving]
      · simp [Visitor.around, he, Visitor.cutOff, throughFirst, Visitor.leaving, Visitor.stopsAt]
    | goOn =>
      have hgo : v.stopsAt ⟨.enter n, s⟩ = false := by simp [Visitor.stopsAt, he]
      refine ⟨last, ⟨.enter n, s⟩ :: calls, ?_, ?_⟩
      · simp [Visitor.around, Visitor.enter_unstopped, he, Answer.unstopped, hwhole]
      · simp [Visitor.around, he, hcut, Visitor.cutOff, hgo, throughFirst]

end Stretch.CutFrom

namespace Tree

theorem cutFrom_stretch (v : Visitor σ) {f : Form} (t : Tree f) :
    Stretch.CutFrom v (t.stretch v) (t.stretch v.unstopped) := by
  induction t with
  | node k body ih => exact ih.around (.node k body)
  | present t ih => exact ih
  | cons x xs ihx ihxs => exact ihx.andThen ihxs
  | slot x xs ihx ihxs => exact ihx.andThen ihxs
  | here t ih => exact ih
  | there t ih => exact ih
  | _ => exact .idle

/-- A walk makes the calls of the walk that is never stopped, up to and including the first one
that the visitor answers with a stop. It ends in the state right after that call; its outcome is
to stop just if there is such a call and to go on otherwise, never to pass over parts. -/
theorem walk_cut_at_first_stop (v : Visitor σ) {k : NodeKind} (n : Node k) (s : σ) :
    n.calls v s = throughFirst v.stopsAt (n.calls v.unstopped s) ∧
      n.walk v s = v.cutOff (n.calls v.unstopped s) (n.walk v.unstopped s).2 ∧
      (n.walk v s).1.name =
        if (n.calls v.unstopped s).any v.stopsAt then Answer.stop.name else Answer.goOn.name := by
  obtain ⟨last, calls, hwhole, hcut⟩ := cutFrom_stretch v n s
  rw [calls_eq_stretch, calls_eq_stretch, walk_eq_stretch, walk_eq_stretch, hwhole, hcut]
  exact ⟨rfl, rfl, v.name_cutOff calls last⟩

end Tree

end UsageIndex
