import UsageIndex.Tree.Trace

/-!
The calls that a walk makes on its visitor, each with the state in which it is made. A walk and
its calls are put together from stretches over the parts of the tree, so what a stretch keeps
when others follow or a node is put around it holds of every walk.
-/

set_option autoImplicit false

namespace UsageIndex

variable {σ : Type}

/-- A call on a visitor, and the state of the visitor before it. -/
structure Call (σ : Type) where
  step : Step
  state : σ

namespace Visitor

def recording (v : Visitor σ) : Visitor (σ × List (Call σ)) where
  enter := fun n r => ((v.enter n r.1).1, (v.enter n r.1).2, r.2 ++ [⟨.enter n, r.1⟩])
  leave := fun n r => (v.leave n r.1, r.2 ++ [⟨.leave n, r.1⟩])

@[simp] theorem enter_recording (v : Visitor σ) {k : NodeKind} (n : Node k) (s : σ)
    (before : List (Call σ)) :
    v.recording.enter n (s, before) =
      ((v.enter n s).1, (v.enter n s).2, before ++ [⟨.enter n, s⟩]) := rfl

@[simp] theorem leave_recording (v : Visitor σ) {k : NodeKind} (n : Node k) (s : σ)
    (before : List (Call σ)) :
    v.recording.leave n (s, before) = (v.leave n s, before ++ [⟨.leave n, s⟩]) := rfl

end Visitor

/-- The calls that a walk from a state makes, in order. -/
def Tree.calls (v : Visitor σ) {f : Form} (t : Tree f) (s : σ) : List (Call σ) :=
  (t.walk v.recording (s, [])).2.2

/-- A part of a walk from a given state on: how it ends, and the calls made on the way. -/
abbrev Stretch (σ : Type) := σ → (Outcome × σ) × List (Call σ)

namespace Stretch

def idle : Stretch σ := fun s => ((.finished, s), [])

def andThen (first second : Stretch σ) : Stretch σ := fun s =>
  match first s with
  | ((.stopped, s), calls) => ((.stopped, s), calls)
  | ((.finished, s), calls) => ((second s).1, calls ++ (second s).2)

theorem fst_andThen (first second : Stretch σ) (s : σ) :
    (first.andThen second s).1 = unlessStopped (first s).1 fun s => (second s).1 := by
  rcases h : first s with ⟨⟨_ | _, s₁⟩, calls⟩ <;> simp [andThen, h]

end Stretch

namespace Visitor

def leaving (v : Visitor σ) {k : NodeKind} (n : Node k) : Stretch σ := fun s =>
  ((.finished, v.leave n s), [⟨.leave n, s⟩])

def around (v : Visitor σ) {k : NodeKind} (n : Node k) (parts : Stretch σ) : Stretch σ := fun s =>
  match v.enter n s with
  | (.stop, s₁) => ((.stopped, s₁), [⟨.enter n, s⟩])
  | (.skipParts, s₁) => ((v.leaving n s₁).1, ⟨.enter n, s⟩ :: (v.leaving n s₁).2)
  | (.goOn, s₁) =>
    ((parts.andThen (v.leaving n) s₁).1, ⟨.enter n, s⟩ :: (parts.andThen (v.leaving n) s₁).2)

end Visitor

namespace Tree

/-- A walk with its calls, put together from the stretches over the parts of the tree. -/
def stretch (v : Visitor σ) {f : Form} : Tree f → Stretch σ
  | .token _ => .idle
  | .element _ => .idle
  | .node k body => v.around (.node k body) (body.stretch v)
  | .absent => .idle
  | .present t => t.stretch v
  | .nil => .idle
  | .cons x xs => (x.stretch v).andThen (xs.stretch v)
  | .nothing => .idle
  | .done => .idle
  | .slot x xs => (x.stretch v).andThen (xs.stretch v)
  | .here t => t.stretch v
  | .there t => t.stretch v

end Tree

def Stretch.RecordedBy (stretch : Stretch σ)
    (walk : σ × List (Call σ) → Outcome × σ × List (Call σ)) : Prop :=
  ∀ s before, walk (s, before) = ((stretch s).1.1, (stretch s).1.2, before ++ (stretch s).2)

namespace Stretch.RecordedBy

theorem idle : (Stretch.idle : Stretch σ).RecordedBy fun r => (.finished, r) := by
  intro s before
  simp [Stretch.idle]

theorem andThen {first second : Stretch σ}
    {walk walk' : σ × List (Call σ) → Outcome × σ × List (Call σ)}
    (h : first.RecordedBy walk) (h' : second.RecordedBy walk') :
    (first.andThen second).RecordedBy fun r => unlessStopped (walk r) walk' := by
  intro s before
  simp only [h s before, Stretch.andThen]
  rcases first s with ⟨⟨_ | _, s₁⟩, calls⟩
  · simp [h' s₁ (before ++ calls)]
  · rfl

theorem leaving (v : Visitor σ) {k : NodeKind} (n : Node k) :
    (v.leaving n).RecordedBy fun r => (.finished, v.recording.leave n r) :=
  fun _ _ => rfl

end Stretch.RecordedBy

namespace Tree

theorem recordedBy_walk (v : Visitor σ) {f : Form} (t : Tree f) :
    (t.stretch v).RecordedBy (t.walk v.recording) := by
  induction t with
  | node k body ih =>
    intro s before
    simp only [stretch, walk, Visitor.around, Visitor.enter_recording]
    rcases v.enter (.node k body) s with ⟨_ | _ | _, s₁⟩
    · have hparts := ih.andThen (.leaving v (.node k body)) s₁
        (before ++ [⟨.enter (.node k body), s⟩])
      simpa using hparts
    · simp [Visitor.leaving]
    · rfl
  | present t ih => exact ih
  | cons x xs ihx ihxs => exact ihx.andThen ihxs
  | slot x xs ihx ihxs => exact ihx.andThen ihxs
  | here t ih => exact ih
  | there t ih => exact ih
  | _ => exact .idle

/-- Recording the calls has no part in the walk. -/
theorem walk_eq_stretch (v : Visitor σ) {f : Form} (t : Tree f) (s : σ) :
    t.walk v s = (t.stretch v s).1 := by
  induction t generalizing s with
  | node k body ih =>
    simp only [stretch, walk, Visitor.around, Stretch.fst_andThen, ih]
    rcases v.enter (.node k body) s with ⟨_ | _ | _, s₁⟩ <;> rfl
  | present t ih => exact ih s
  | cons x xs ihx ihxs => simp only [stretch, walk, Stretch.fst_andThen, ihx, funext ihxs]
  | slot x xs ihx ihxs => simp only [stretch, walk, Stretch.fst_andThen, ihx, funext ihxs]
  | here t ih => exact ih s
  | there t ih => exact ih s
  | _ => rfl

theorem calls_eq_stretch (v : Visitor σ) {f : Form} (t : Tree f) (s : σ) :
    t.calls v s = (t.stretch v s).2 := by
  rw [calls, recordedBy_walk v t s []]
  rfl

end Tree

end UsageIndex
