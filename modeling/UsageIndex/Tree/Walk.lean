import UsageIndex.Tree.Basic

/-!
Walking a tree. A visitor is asked at each node, before its parts, whether to go on, to pass
over the parts, or to stop the walk; it is told when a node is left. A stopped walk leaves
nothing.
-/

set_option autoImplicit false

namespace UsageIndex

inductive Answer where
  | goOn
  | skipParts
  | stop
  deriving DecidableEq, Repr

inductive Outcome where
  | finished
  | stopped
  deriving DecidableEq, Repr

namespace Answer

def default : Answer := .goOn

def name : Answer → String
  | .goOn => "Continue"
  | .skipParts => "SkipChildren"
  | .stop => "Stop"

end Answer

def Outcome.name : Outcome → String
  | .finished => "Continue"
  | .stopped => "Stop"

structure Visitor (σ : Type) where
  enter : {k : NodeKind} → Node k → σ → Answer × σ
  leave : {k : NodeKind} → Node k → σ → σ

def unlessStopped {σ : Type} (first : Outcome × σ) (rest : σ → Outcome × σ) : Outcome × σ :=
  match first with
  | (.stopped, s) => (.stopped, s)
  | (.finished, s) => rest s

@[simp] theorem unlessStopped_stopped {σ : Type} (s : σ) (rest : σ → Outcome × σ) :
    unlessStopped (.stopped, s) rest = (.stopped, s) := rfl

@[simp] theorem unlessStopped_finished {σ : Type} (s : σ) (rest : σ → Outcome × σ) :
    unlessStopped (.finished, s) rest = rest s := rfl

def Tree.walk {σ : Type} (v : Visitor σ) {f : Form} : Tree f → σ → Outcome × σ
  | .token _, s => (.finished, s)
  | .element _, s => (.finished, s)
  | .node k body, s =>
    match v.enter (.node k body) s with
    | (.stop, s) => (.stopped, s)
    | (.skipParts, s) => (.finished, v.leave (.node k body) s)
    | (.goOn, s) => unlessStopped (body.walk v s) fun s => (.finished, v.leave (.node k body) s)
  | .absent, s => (.finished, s)
  | .present t, s => t.walk v s
  | .nil, s => (.finished, s)
  | .cons x xs, s => unlessStopped (x.walk v s) (xs.walk v)
  | .nothing, s => (.finished, s)
  | .done, s => (.finished, s)
  | .slot x xs, s => unlessStopped (x.walk v s) (xs.walk v)
  | .here t, s => t.walk v s
  | .there t, s => t.walk v s

end UsageIndex
