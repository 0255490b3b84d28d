import UsageIndex.Tree.Walk
import UsageIndex.Unit.Rules

/-!
What a compilation unit contributes to an index. The unit is walked once; a construct claims
the identifiers it speaks for by their offsets, and a claim is used up by the first reference
at its offset.
-/

set_option autoImplicit false

namespace UsageIndex

structure Contributor where
  recording : Recording
  /-- The offsets of identifiers that a construct has spoken for. -/
  claimed : List UInt32 := []
  deriving DecidableEq, Repr

namespace Contributor

def record (c : Contributor) (m : Model) (uses : List Candidate) : Contributor :=
  { c with recording := c.recording.addAll m uses }

def claim (c : Contributor) (identifiers : List Identifier) : Contributor :=
  { c with claimed := identifiers.map Identifier.offset ++ c.claimed }

def release (c : Contributor) (offset : UInt32) : Contributor :=
  { c with claimed := c.claimed.filter (· != offset) }

/-- A reference counts unless it is claimed, and uses up its claim. -/
def visitReference (c : Contributor) (m : Model) (n : Node .simpleIdentifier) : Contributor :=
  if n.reference.offset ∈ c.claimed then c.release n.reference.offset
  else c.record m (n.referenceUses m)

def visit (c : Contributor) (m : Model) (o : Options) {k : NodeKind} (n : Node k) :
    Contributor :=
  match k, n with
  | .simpleIdentifier, n => c.visitReference m n
  | _, n => (c.record m (n.constructUses m o)).claim n.claims

def visitor (m : Model) (o : Options) : Visitor Contributor where
  enter := @fun _ n c => (.goOn, c.visit m o n)
  leave := @fun _ _ c => c

end Contributor

def Recording.contribute (r : Recording) (m : Model) (o : Options) (unit : Node .compilationUnit) :
    Recording :=
  (unit.walk (Contributor.visitor m o) ⟨r, []⟩).2.recording

end UsageIndex
