import UsageIndex.Proofs.Tree.Brackets
import UsageIndex.Proofs.Tree.Kinds

/-!
The identifiers of a tree. A walk that always goes on hands over each of them once, in source
order, and as a declared one just if it stands in a field in which its node declares a name. The
places of identifiers are given by addresses, without a walk.
-/

set_option autoImplicit false

namespace UsageIndex

variable {σ : Type}

/-- The fields of a node whose identifiers name what the node declares. -/
def NodeKind.declaringFields : NodeKind → List String
  | .importDirective => ["prefix"]
  | .typeParameter | .classDeclaration | .classTypeAlias | .functionDeclaration
  | .functionTypeAlias | .variableDeclaration | .methodDeclaration => ["name"]
  | .enumDeclaration => ["name", "constants"]
  | .constructorDeclaration => ["return_type", "name"]
  | .simpleFormalParameter | .fieldFormalParameter => ["identifier"]
  | .labeledStatement => ["labels"]
  | _ => []

structure Naming where
  declares : Bool
  identifier : Identifier
  deriving DecidableEq, Repr

namespace SomeNode

def identifier? (n : SomeNode) : Option Identifier :=
  match n.kind, n.node with
  | .simpleIdentifier, node => some node.reference
  | .declaredIdentifier, node => some node.declaration
  | _, _ => none

def naming? (n : SomeNode) : Option Naming :=
  n.identifier?.map fun i => ⟨n.kind == .declaredIdentifier, i⟩

end SomeNode

namespace Step

def entered? : Step → Option SomeNode
  | .enter n => some ⟨n⟩
  | .leave _ => none

@[simp] theorem entered?_enter {k : NodeKind} (n : Node k) : (enter n).entered? = some ⟨n⟩ := rfl

@[simp] theorem entered?_leave {k : NodeKind} (n : Node k) : (leave n).entered? = none := rfl

/-- The identifier that is handed over by a step, as the kind of its node says. -/
def naming? (step : Step) : Option Naming := step.entered?.bind SomeNode.naming?

end Step

/-- At a list or a record, whether to take the first item or field or to go on behind it. -/
inductive Turn where
  | first
  | behind
  deriving DecidableEq, Repr

abbrev Address := List Turn

/-- The order of parts in the source, where neither part lies in the other. -/
inductive Address.Before : Address → Address → Prop where
  | apart (a b : Address) : Before (.first :: a) (.behind :: b)
  | within (turn : Turn) {a b : Address} : Before a b → Before (turn :: a) (turn :: b)

theorem Address.Before.ne {a b : Address} (h : Before a b) : a ≠ b := by
  induction h with
  | apart a b => simp
  | within turn _ ih => simpa using ih

structure Spot where
  address : Address
  naming : Naming
  deriving DecidableEq, Repr

namespace Spot

def under (turn : Turn) (s : Spot) : Spot := ⟨turn :: s.address, s.naming⟩

def join (front back : List Spot) : List Spot :=
  front.map (under .first) ++ back.map (under .behind)

variable {front back : List Spot}

theorem pairwise_join (hfront : front.Pairwise (Address.Before ·.address ·.address))
    (hback : back.Pairwise (Address.Before ·.address ·.address)) :
    (join front back).Pairwise (Address.Before ·.address ·.address) := by
  refine List.pairwise_append.2 ⟨?_, ?_, ?_⟩
  · exact List.pairwise_map.2 (hfront.imp (.within .first))
  · exact List.pairwise_map.2 (hback.imp (.within .behind))
  · intro p hp q hq
    obtain ⟨p, -, rfl⟩ := List.mem_map.1 hp
    obtain ⟨q, -, rfl⟩ := List.mem_map.1 hq
    exact .apart p.address q.address

theorem not_mem_join_nil {i : Naming} : ⟨[], i⟩ ∉ join front back := by
  simp [join, under]

theorem mem_map_under {spots : List Spot} {turn : Turn} {a : Address} {i : Naming} :
    ⟨turn :: a, i⟩ ∈ spots.map (under turn) ↔ ⟨a, i⟩ ∈ spots := by
  constructor
  · intro h
    obtain ⟨⟨a', i'⟩, hs, he⟩ := List.mem_map.1 h
    cases he
    exact hs
  · intro h
    exact List.mem_map_of_mem h

theorem mem_join_first {a : Address} {i : Naming} :
    ⟨.first :: a, i⟩ ∈ join front back ↔ ⟨a, i⟩ ∈ front := by
  have hback : ⟨.first :: a, i⟩ ∉ back.map (under .behind) := by simp [under]
  rw [join, List.mem_append, mem_map_under, or_iff_left hback]

theorem mem_join_behind {a : Address} {i : Naming} :
    ⟨.behind :: a, i⟩ ∈ join front back ↔ ⟨a, i⟩ ∈ back := by
  have hfront : ⟨.behind :: a, i⟩ ∉ front.map (under .first) := by simp [under]
  rw [join, List.mem_append, mem_map_under, or_iff_right hfront]

theorem map_naming_join : (join front back).map naming = front.map naming ++ back.map naming := by
  simp only [join, List.map_append, List.map_map]
  rfl

end Spot

namespace Tree

/-- The identifier at an address, with whether its place is one where a name is declared. These
places are given by `fields` for the fields of a record, all others are like that of the tree. -/
def namingAt? {f : Form} : Tree f → (fields : String → Bool) → (declares : Bool) → Address →
    Option Naming
  | .node k body, _, declares, a =>
    match (⟨.node k body⟩ : SomeNode).identifier? with
    | some i => if a = [] then some ⟨declares, i⟩ else none
    | none => body.namingAt? k.declaringFields.contains false a
  | .present t, fields, declares, a => t.namingAt? fields declares a
  | .cons x _, fields, declares, .first :: a => x.namingAt? fields declares a
  | .cons _ xs, fields, declares, .behind :: a => xs.namingAt? fields declares a
  | @Tree.slot name _ _ _ x _, fields, _, .first :: a =>
    x.namingAt? (fun _ => false) (fields name) a
  | .slot _ xs, fields, declares, .behind :: a => xs.namingAt? fields declares a
  | .here t, fields, declares, a => t.namingAt? fields declares a
  | .there t, fields, declares, a => t.namingAt? fields declares a
  | _, _, _, _ => none

def spots {f : Form} : Tree f → (fields : String → Bool) → (declares : Bool) → List Spot
  | .token _, _, _ => []
  | .element _, _, _ => []
  | .node k body, _, declares =>
    match (⟨.node k body⟩ : SomeNode).identifier? with
    | some i => [⟨[], declares, i⟩]
    | none => body.spots k.declaringFields.contains false
  | .absent, _, _ => []
  | .present t, fields, declares => t.spots fields declares
  | .nil, _, _ => []
  | .cons x xs, fields, declares => Spot.join (x.spots fields declares) (xs.spots fields declares)
  | .nothing, _, _ => []
  | .done, _, _ => []
  | @Tree.slot name _ _ _ x xs, fields, declares =>
    Spot.join (x.spots (fun _ => false) (fields name)) (xs.spots fields declares)
  | .here t, fields, declares => t.spots fields declares
  | .there t, fields, declares => t.spots fields declares

theorem pairwise_spots {f : Form} (t : Tree f) (fields : String → Bool) (declares : Bool) :
    (t.spots fields declares).Pairwise (Address.Before ·.address ·.address) := by
  induction t generalizing fields declares with
  | node k body ih =>
    rw [spots]
    split
    · exact List.pairwise_singleton _ _
    · exact ih _ _
  | present t ih => exact ih fields declares
  | cons x xs ihx ihxs => exact Spot.pairwise_join (ihx _ _) (ihxs _ _)
  | slot x xs ihx ihxs => exact Spot.pairwise_join (ihx _ _) (ihxs _ _)
  | here t ih => exact ih fields declares
  | there t ih => exact ih fields declares
  | _ => exact .nil

theorem mem_spots {f : Form} (t : Tree f) (fields : String → Bool) (declares : Bool)
    (a : Address) (i : Naming) :
    ⟨a, i⟩ ∈ t.spots fields declares ↔ t.namingAt? fields declares a = some i := by
  induction t generalizing fields declares a with
  | node k body ih =>
    rw [spots, namingAt?]
    cases (⟨node k body⟩ : SomeNode).identifier? with
    | none => exact ih _ _ _
    | some j =>
      by_cases ha : a = []
      · simp [ha, eq_comm]
      · simp [ha]
  | present t ih => exact ih fields declares a
  | cons x xs ihx ihxs =>
    match a with
    | [] => simp [spots, namingAt?, Spot.not_mem_join_nil]
    | .first :: a => exact Spot.mem_join_first.trans (ihx _ _ a)
    | .behind :: a => exact Spot.mem_join_behind.trans (ihxs _ _ a)
  | slot x xs ihx ihxs =>
    match a with
    | [] => simp [spots, namingAt?, Spot.not_mem_join_nil]
    | .first :: a => exact Spot.mem_join_first.trans (ihx _ _ a)
    | .behind :: a => exact Spot.mem_join_behind.trans (ihxs _ _ a)
  | here t ih => exact ih fields declares a
  | there t ih => exact ih fields declares a
  | _ => simp [spots, namingAt?]

end Tree

/-- Whether the nodes that a form names are declared identifiers just at the places where names
are declared. -/
def Form.declaresAt : Form → (fields : String → Bool) → (declares : Bool) → Bool
  | .node k, _, declares => (k == .declaredIdentifier) == declares
  | .optional f, fields, declares => f.declaresAt fields declares
  | .many f, fields, declares => f.declaresAt fields declares
  | .slot name _ f rest, fields, declares =>
    f.declaresAt (fun _ => false) (fields name) && rest.declaresAt fields declares
  | .either _ f rest, fields, declares =>
    f.declaresAt fields declares && rest.declaresAt fields declares
  | _, _, _ => true

theorem NodeKind.declaresAt_form (k : NodeKind) :
    k.form.declaresAt k.declaringFields.contains false = true := by
  cases k <;> decide

theorem SomeNode.within_of_identifier? {n : SomeNode} {i : Identifier}
    (h : n.identifier? = some i) : n.kind.form.within (fun _ => false) = true := by
  obtain ⟨n⟩ := n
  rename_i k
  cases k with
  | simpleIdentifier => rfl
  | declaredIdentifier => rfl
  | _ => cases h

namespace Tree

theorem map_naming_spots {f : Form} (t : Tree f) (fields : String → Bool) (declares : Bool)
    (hf : f.declaresAt fields declares = true) :
    (t.spots fields declares).map Spot.naming = t.nodes.filterMap SomeNode.naming? := by
  induction t generalizing fields declares with
  | node k body ih =>
    rw [spots, nodes, List.filterMap_cons, SomeNode.naming?]
    cases hi : (⟨node k body⟩ : SomeNode).identifier? with
    | none => exact ih _ _ k.declaresAt_form
    | some i =>
      have hbody : body.nodes = [] := body.nodes_eq_nil (SomeNode.within_of_identifier? hi)
      have hkind : (k == .declaredIdentifier) = declares := eq_of_beq hf
      simp [hbody, hkind]
  | present t ih => exact ih fields declares hf
  | cons x xs ihx ihxs =>
    rw [spots, nodes, Spot.map_naming_join, List.filterMap_append, ihx _ _ hf, ihxs _ _ hf]
  | slot x xs ihx ihxs =>
    obtain ⟨hx, hxs⟩ := Bool.and_eq_true_iff.1 hf
    rw [spots, nodes, Spot.map_naming_join, List.filterMap_append, ihx _ _ hx, ihxs _ _ hxs]
  | here t ih => exact ih fields declares (Bool.and_eq_true_iff.1 hf).1
  | there t ih => exact ih fields declares (Bool.and_eq_true_iff.1 hf).2
  | _ => rfl

theorem nodes_eq_flatMap_outermost {f : Form} (t : Tree f) :
    t.nodes = t.outermost.flatMap fun n => n.node.nodes := by
  induction t with
  | node k body ih => simp [outermost]
  | present t ih => exact ih
  | cons x xs ihx ihxs => rw [nodes, outermost, List.flatMap_append, ← ihx, ← ihxs]
  | slot x xs ihx ihxs => rw [nodes, outermost, List.flatMap_append, ← ihx, ← ihxs]
  | here t ih => exact ih
  | there t ih => exact ih
  | _ => rfl

theorem nodes_eq_cons {k : NodeKind} (n : Node k) :
    n.nodes = ⟨n⟩ :: n.children.flatMap fun m => m.node.nodes := by
  cases n with
  | node k body => rw [nodes, children, ← nodes_eq_flatMap_outermost]

end Tree

theorem Visitor.Brackets.filterMap_entered? {v : Visitor σ}
    (hv : ∀ {k : NodeKind} (n : Node k) (s : σ), (v.enter n s).1 = .goOn) {ns : List SomeNode}
    {s s₁ : σ} {calls : List (Call σ)} (h : v.Brackets ns s calls s₁) :
    (calls.map Call.step).filterMap Step.entered? = ns.flatMap fun n => n.node.nodes := by
  induction h with
  | nil s => rfl
  | @skipped n _ s _ _ _ henter =>
    have hgo := hv n.node s
    rw [henter] at hgo
    cases hgo
  | @entered n _ _ _ _ _ _ _ henter hinner hrest ihinner ihrest =>
    simp [List.filterMap_cons, ihinner, ihrest, n.node.nodes_eq_cons]

/-- A walk that always goes on hands over exactly the identifiers that the unit has anywhere, each
once and in source order, and as declared ones just those at places where names are declared. -/
theorem Tree.walk_identifiers {v : Visitor σ}
    (hv : ∀ {k : NodeKind} (n : Node k) (s : σ), (v.enter n s).1 = .goOn)
    (unit : Node .compilationUnit) (s : σ) :
    ∃ spots : List Spot, (unit.steps v s).filterMap Step.naming? = spots.map Spot.naming ∧
      spots.Pairwise (Address.Before ·.address ·.address) ∧
      (spots.map Spot.address).Nodup ∧
      ∀ a i, ⟨a, i⟩ ∈ spots ↔ unit.namingAt? (fun _ => false) false a = some i := by
  have hbrackets := unit.brackets_calls (v := v) (fun n s => by rw [hv n s]; nofun) s
  have hentered := hbrackets.filterMap_entered? hv
  refine ⟨unit.spots (fun _ => false) false, ?_, unit.pairwise_spots _ _, ?_,
    unit.mem_spots _ _⟩
  · have hsteps : (unit.steps v s).filterMap Step.entered? = unit.nodes := by
      rw [steps, hentered, List.flatMap_singleton]
    rw [unit.map_naming_spots _ _ rfl, ← hsteps, List.filterMap_filterMap]
    rfl
  · rw [List.Nodup, List.pairwise_map]
    exact (unit.pairwise_spots _ _).imp Address.Before.ne

namespace Sample

/-- A unit with the function `f(A x) { l: break l; }`, where the declared names resolve to these
elements. -/
def labelled (function parameter label : Option ElementId) : Node .compilationUnit :=
  let parameters : Node .formalParameterList :=
    .formalParameterList [.node _ (.here (.node _
      (.slot (.present (.simpleType ⟨⟨"A", 2⟩, some ⟨2⟩⟩))
        (.slot (.declaredIdentifier ⟨⟨"x", 4⟩, parameter⟩) .done))))]
  let leaving : Node .breakStatement :=
    .node _ (.slot (.token ⟨"break", 12⟩)
      (.slot (.present (.simpleIdentifier ⟨⟨"l", 18⟩, none⟩)) .done))
  let statement : Node .labeledStatement :=
    .node _ (.slot (.ofList [.declaredIdentifier ⟨⟨"l", 9⟩, label⟩])
      (.slot (.node _ (.there (.there (.there (.there (.there (.there (.there (.there
        (.here leaving)))))))))) .done))
  let block : Node .block :=
    .node _ (.slot (.ofList [.node _ (.there (.there (.there (.there (.there (.there (.there
      (.here statement))))))))]) .done)
  let declared : Node .functionDeclaration :=
    .node _ (.slot .absent (.slot .absent (.slot (.declaredIdentifier ⟨⟨"f", 0⟩, function⟩)
      (.slot .nil (.slot parameters (.slot (.node _ (.here block)) .done))))))
  Tree.addDeclaration (.emptyUnit ⟨1⟩) (.node _ (.there (.there (.there (.here declared)))))

end Sample

/-- The label is declared in the first place and referred to in the second. -/
theorem Tree.walk_identifiers_sample :
    (∀ {k : NodeKind} (n : Node k) (s : Unit), (Visitor.straight.enter n s).1 = .goOn) ∧
      ∃ spots : List Spot,
        spots.map Spot.naming = [⟨true, ⟨⟨"f", 0⟩, none⟩⟩, ⟨false, ⟨⟨"A", 2⟩, some ⟨2⟩⟩⟩,
          ⟨true, ⟨⟨"x", 4⟩, none⟩⟩, ⟨true, ⟨⟨"l", 9⟩, none⟩⟩, ⟨false, ⟨⟨"l", 18⟩, none⟩⟩] ∧
        spots.Pairwise (Address.Before ·.address ·.address) ∧
        (spots.map Spot.address).Nodup ∧
        ∀ a i, ⟨a, i⟩ ∈ spots ↔
          (Sample.labelled none none none).namingAt? (fun _ => false) false a = some i := by
  obtain ⟨spots, hsteps, hordered, hnodup, hall⟩ := walk_identifiers (v := .straight)
    (fun _ _ => rfl) (Sample.labelled none none none) ()
  exact ⟨fun _ _ => rfl, spots, hsteps.symm, hordered, hnodup, hall⟩

end UsageIndex
