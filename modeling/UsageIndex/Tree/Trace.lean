import UsageIndex.Tree.Parts
import UsageIndex.Tree.Walk

/-!
The trace of a walk: the nodes entered and left, in order, under given answers.
-/

set_option autoImplicit false

namespace UsageIndex

inductive Step where
  | enter {k : NodeKind} (n : Node k)
  | leave {k : NodeKind} (n : Node k)

/-- What to say of a node besides its kind: names and strings are shown with their offsets. -/
def Tree.caption {k : NodeKind} (n : Node k) : String :=
  match k, n with
  | .simpleIdentifier, n => placed n.reference.name n.reference.offset
  | .declaredIdentifier, n => placed n.declaration.name n.declaration.offset
  | .stringLiteral, n => placed n.stringValue n.stringToken.offset
  | _, _ => ""
where
  placed (text : String) (offset : UInt32) : String :=
    " " ++ text ++ "@" ++ toString offset.toNat

def Step.label : Step → String
  | @Step.enter k n => "+" ++ k.name ++ n.caption
  | @Step.leave k _ => "-" ++ k.name

/-- The steps of a walk so far, last one first, and the number of nodes entered. -/
structure Trace where
  entered : Nat := 0
  steps : List Step := []

def tracing (answer : Nat → NodeKind → Answer) : Visitor Trace where
  enter := @fun k n t => (answer t.entered k, ⟨t.entered + 1, .enter n :: t.steps⟩)
  leave := @fun _ n t => ⟨t.entered, .leave n :: t.steps⟩

/-- Which nodes stop a walk or are passed over, by number or by kind. Stopping comes first. -/
structure Script where
  stopAt : Option Nat := none
  stop : List String := []
  skipAt : List Nat := []
  skip : List String := []
  deriving DecidableEq, Repr

def Script.answer (script : Script) (number : Nat) (k : NodeKind) : Answer :=
  if script.stopAt = some number ∨ k.name ∈ script.stop then .stop
  else if number ∈ script.skipAt ∨ k.name ∈ script.skip then .skipParts
  else .goOn

def Tree.trace {f : Form} (t : Tree f) (script : Script) : Outcome × Trace :=
  t.walk (tracing script.answer) {}

end UsageIndex
