import UsageIndex.Fault

/-!
Operations that change a state in place and may fail. A failure undoes nothing: what it leaves
behind is what the steps before it have made of the state.
-/

set_option autoImplicit false

namespace UsageIndex

abbrev InPlace (σ α : Type) : Type := ExceptT Fault (StateM σ) α

namespace InPlace

variable {σ τ α β : Type}

/-- The result, and the state that is left behind, by a failure as well. -/
def runOn (op : InPlace σ α) (s : σ) : Except Fault α × σ := op.run.run s

def outcome (op : InPlace σ α) (s : σ) : Except Fault (α × σ) :=
  match op.runOn s with
  | (.ok a, s) => .ok (a, s)
  | (.error fault, _) => .error fault

def on (part : σ → τ) (put : σ → τ → σ) (op : InPlace τ α) : InPlace σ α :=
  ExceptT.mk fun s =>
    let (result, t) := op.runOn (part s)
    (result, put s t)

@[simp] theorem runOn_pure (a : α) (s : σ) : (pure a : InPlace σ α).runOn s = (.ok a, s) := rfl

@[simp] theorem runOn_throw (fault : Fault) (s : σ) :
    (throw fault : InPlace σ α).runOn s = (.error fault, s) := rfl

@[simp] theorem runOn_lift (result : Except Fault α) (s : σ) :
    (liftM result : InPlace σ α).runOn s = (result, s) := rfl

@[simp] theorem runOn_get (s : σ) : (get : InPlace σ σ).runOn s = (.ok s, s) := rfl

@[simp] theorem runOn_modify (f : σ → σ) (s : σ) :
    (modify f : InPlace σ Unit).runOn s = (.ok (), f s) := rfl

@[simp] theorem runOn_modifyGet (f : σ → α × σ) (s : σ) :
    (modifyGet f : InPlace σ α).runOn s = (.ok (f s).1, (f s).2) := rfl

@[simp] theorem runOn_on (part : σ → τ) (put : σ → τ → σ) (op : InPlace τ α) (s : σ) :
    (op.on part put).runOn s = ((op.runOn (part s)).1, put s (op.runOn (part s)).2) := rfl

@[simp] theorem runOn_bind (op : InPlace σ α) (next : α → InPlace σ β) (s : σ) :
    (op >>= next).runOn s =
      match op.runOn s with
      | (.ok a, s) => (next a).runOn s
      | (.error fault, s) => (.error fault, s) := by
  simp only [runOn, ExceptT.run_bind, StateT.run_bind]
  rcases op.run.run s with ⟨_ | _, _⟩ <;> rfl

theorem outcome_eq_ok_iff {op : InPlace σ α} {s s' : σ} {a : α} :
    op.outcome s = .ok (a, s') ↔ op.runOn s = (.ok a, s') := by
  unfold outcome
  split <;> simp [*]

theorem outcome_eq_error_iff {op : InPlace σ α} {s : σ} {fault : Fault} :
    op.outcome s = .error fault ↔ ∃ s', op.runOn s = (.error fault, s') := by
  unfold outcome
  split <;> simp [*]

end InPlace

end UsageIndex
