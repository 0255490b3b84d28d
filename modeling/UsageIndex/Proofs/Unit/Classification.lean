import UsageIndex.Proofs.Unit.Recording
import UsageIndex.Tree.Build

/-!
Which references count is a matter of where they stand. A construct speaks for the names in some
of its fields: the types in the clauses of a class, the type and the name of a constructor, the
name of a method or of an initialized field. The walk over a unit finds these places through a
set of claimed offsets that is filled at the construct and emptied much later; as long as no two
references share an offset, what it records is the classification by places.
-/

set_option autoImplicit false

namespace UsageIndex

/-- The fields that lead to the name of a whole: who speaks for the whole speaks for the name. -/
@[simp] def NodeKind.namingFields : NodeKind → List String
  | .extendsClause => ["superclass"]
  | .withClause => ["mixins"]
  | .implementsClause => ["interfaces"]
  | .typeName => ["name"]
  | .prefixedIdentifier => ["identifier"]
  | _ => []

namespace Tree

/-- The fields whose names a construct speaks for. The name of a constructor is one of them
only behind a period. -/
@[simp] def spokenFields {k : NodeKind} (n : Node k) : List String :=
  match k, n with
  | .classDeclaration, _ => ["extends_clause", "with_clause", "implements_clause"]
  | .classTypeAlias, _ => ["superclass", "with_clause", "implements_clause"]
  | .constructorFieldInitializer, _ => ["field_name"]
  | .redirectingConstructorInvocation, n =>
    if n.redirection.period.isSome then ["constructor_name"] else []
  | .superConstructorInvocation, n =>
    if n.superCall.period.isSome then ["constructor_name"] else []
  | .methodInvocation, _ => ["method_name"]
  | .constructorName, n =>
    "type_name" :: if n.constructorMention.period.isSome then ["name"] else []
  | _, _ => []

def speaksFor {k : NodeKind} (n : Node k) (spoken : Bool) (field : String) : Bool :=
  n.spokenFields.contains field || (spoken && k.namingFields.contains field)

/-- The nodes of a tree in source order, each with whether its place is spoken for. The places
in the fields of a record are given by `fields`, all others are like that of the tree. -/
def places {f : Form} : Tree f → (fields : String → Bool) → (spoken : Bool) →
    List (SomeNode × Bool)
  | .token _, _, _ => []
  | .element _, _, _ => []
  | .node k body, _, spoken =>
    (⟨.node k body⟩, spoken) :: body.places (speaksFor (.node k body) spoken) false
  | .absent, _, _ => []
  | .present t, fields, spoken => t.places fields spoken
  | .nil, _, _ => []
  | .cons x xs, fields, spoken => x.places fields spoken ++ xs.places fields spoken
  | .nothing, _, _ => []
  | .done, _, _ => []
  | @Tree.slot name _ _ _ x xs, fields, spoken =>
    x.places (fun _ => false) (fields name) ++ xs.places fields spoken
  | .here t, fields, spoken => t.places fields spoken
  | .there t, fields, spoken => t.places fields spoken

end Tree

namespace SomeNode

/-- The uses that a node shows at a place: a construct its own, a reference what it refers to
unless the place is spoken for. -/
def usesAt (m : Model) (o : Options) (n : SomeNode) (spoken : Bool) : List Candidate :=
  match n.kind, n.node with
  | .simpleIdentifier, node => if spoken then [] else node.referenceUses m
  | _, node => node.constructUses m o

theorem usesAt_of_ne (m : Model) (o : Options) {k : NodeKind} (n : Node k) (spoken : Bool)
    (h : k ≠ .simpleIdentifier) : (⟨n⟩ : SomeNode).usesAt m o spoken = n.constructUses m o := by
  unfold usesAt
  split
  · contradiction
  · rfl

end SomeNode

namespace Tree

def placeUses (m : Model) (o : Options) (ps : List (SomeNode × Bool)) : List Candidate :=
  ps.flatMap fun (n, spoken) => n.usesAt m o spoken

def classified (m : Model) (o : Options) (unit : Node .compilationUnit) : List Candidate :=
  placeUses m o (unit.places (fun _ => false) false)

def references {f : Form} (t : Tree f) : List Identifier :=
  t.nodes.filterMap SomeNode.reference?

@[simp] def outerNames {f : Form} : Tree f → (fields : String → Bool) → (spoken : Bool) →
    List Identifier
  | .token _, _, _ => []
  | .element _, _, _ => []
  | .node k body, _, spoken =>
    (if spoken then (⟨.node k body⟩ : SomeNode).reference?.toList else [])
      ++ body.outerNames (fun name => spoken && k.namingFields.contains name) false
  | .absent, _, _ => []
  | .present t, fields, spoken => t.outerNames fields spoken
  | .nil, _, _ => []
  | .cons x xs, fields, spoken => x.outerNames fields spoken ++ xs.outerNames fields spoken
  | .nothing, _, _ => []
  | .done, _, _ => []
  | @Tree.slot name _ _ _ x xs, fields, spoken =>
    x.outerNames (fun _ => false) (fields name) ++ xs.outerNames fields spoken
  | .here t, fields, spoken => t.outerNames fields spoken
  | .there t, fields, spoken => t.outerNames fields spoken

@[simp] theorem outerNames_none {f : Form} (t : Tree f) :
    t.outerNames (fun _ => false) false = [] := by
  induction t with
  | node k body ih => simp [outerNames, ih]
  | present t ih => exact ih
  | cons x xs ihx ihxs => simp [outerNames, ihx, ihxs]
  | slot x xs ihx ihxs => simp [outerNames, ihx, ihxs]
  | here t ih => exact ih
  | there t ih => exact ih
  | _ => rfl

theorem outerNames_subset {f : Form} (t : Tree f) (fields : String → Bool) (spoken : Bool) :
    t.outerNames fields spoken ⊆ t.references := by
  induction t generalizing fields spoken with
  | node k body ih =>
    intro i hi
    simp only [outerNames, List.mem_append] at hi
    simp only [references, nodes, List.mem_filterMap, List.mem_cons]
    rcases hi with hi | hi
    · cases spoken with
      | false => simp at hi
      | true => exact ⟨_, .inl rfl, by simpa using hi⟩
    · have hbody := ih _ _ hi
      simp only [references, List.mem_filterMap] at hbody
      obtain ⟨n, hn, hni⟩ := hbody
      exact ⟨n, .inr hn, hni⟩
  | present t ih => exact ih fields spoken
  | cons x xs ihx ihxs =>
    simp only [outerNames, references, nodes, List.filterMap_append]
    exact append_subset_append (ihx _ _) (ihxs _ _)
  | slot x xs ihx ihxs =>
    simp only [outerNames, references, nodes, List.filterMap_append]
    exact append_subset_append (ihx _ _) (ihxs _ _)
  | here t ih => exact ih fields spoken
  | there t ih => exact ih fields spoken
  | _ => exact List.nil_subset _

theorem mem_outerNames_or {f : Form} (t : Tree f) (p q : String → Bool) (s s' : Bool)
    (i : Identifier) :
    i ∈ t.outerNames (fun name => p name || q name) (s || s') ↔
      i ∈ t.outerNames p s ∨ i ∈ t.outerNames q s' := by
  induction t generalizing p q s s' with
  | node k body ih =>
    have hbody := ih (fun name => s && k.namingFields.contains name)
      (fun name => s' && k.namingFields.contains name) false false
    have hfields : (fun name => (s || s') && k.namingFields.contains name) =
        fun name => (s && k.namingFields.contains name) ||
          (s' && k.namingFields.contains name) := by
      funext name
      rw [Bool.and_or_distrib_right]
    simp only [outerNames, List.mem_append, hfields]
    rw [Bool.or_false] at hbody
    rw [hbody]
    cases s <;> cases s' <;> simp
  | present t ih => exact ih p q s s'
  | cons x xs ihx ihxs =>
    simp only [outerNames, List.mem_append, ihx, ihxs]
    tauto
  | @slot name omissible f rest x xs ihx ihxs =>
    have hx := ihx (fun _ => false) (fun _ => false) (p name) (q name)
    rw [Bool.or_false] at hx
    simp only [outerNames, List.mem_append, ihxs, hx]
    tauto
  | here t ih => exact ih p q s s'
  | there t ih => exact ih p q s s'
  | _ => simp [outerNames]

def ownNames {f : Form} (t : Tree f) : List Identifier := t.outerNames (fun _ => false) true

section Slots

variable {name : String} {omissible : Bool} {f rest : Form} {x : Tree f} {xs : Tree rest}
  {fields : String → Bool} {own later : List Identifier}

theorem outerNames_spoken (h : fields name = true) (hx : x.ownNames = own)
    (hxs : xs.outerNames fields false = later) :
    (slot x xs : Tree (.slot name omissible f rest)).outerNames fields false = own ++ later := by
  rw [outerNames, h, hxs]
  exact congrArg (· ++ later) hx

theorem outerNames_unspoken (h : fields name = false) (hxs : xs.outerNames fields false = later) :
    (slot x xs : Tree (.slot name omissible f rest)).outerNames fields false = later := by
  rw [outerNames, h, outerNames_none, List.nil_append, hxs]

theorem outerNames_last (h : fields name = true) (hx : x.ownNames = own)
    (hxs : xs.outerNames fields false = []) :
    (slot x xs : Tree (.slot name omissible f rest)).outerNames fields false = own :=
  (outerNames_spoken h hx hxs).trans (List.append_nil own)

end Slots

theorem ownNames_node {k : NodeKind} {body : Tree k.form} {names : List Identifier}
    (hk : k ≠ .simpleIdentifier) (h : body.outerNames k.namingFields.contains false = names) :
    (node k body).ownNames = names := by
  rw [ownNames, outerNames, SomeNode.reference?_eq_none _ hk]
  exact h

theorem ownNames_simpleIdentifier : (n : Node .simpleIdentifier) →
    n.ownNames = [n.reference]
  | .node _ (.slot (.token _) (.slot .absent .done)) => rfl
  | .node _ (.slot (.token _) (.slot (.present (.element _)) .done)) => rfl

theorem ownNames_identifier : (t : Tree .identifier) → t.ownNames = [t.lastIdentifier]
  | .here simple => ownNames_simpleIdentifier simple
  | .there (.here (.node _ (.slot _ (.slot _ (.slot identifier .done))))) =>
    ownNames_node (by decide) (outerNames_unspoken rfl (outerNames_unspoken rfl
      (outerNames_last rfl (ownNames_simpleIdentifier identifier) rfl)))

theorem ownNames_typeName : (n : Node .typeName) → n.ownNames = [n.typeMention.name]
  | .node _ (.slot name (.slot _ (.slot _ .done))) =>
    ownNames_node (by decide) (outerNames_last rfl (ownNames_identifier name)
      (outerNames_unspoken rfl (outerNames_unspoken rfl rfl)))

theorem ownNames_types : (ts : Tree (.many (.node .typeName))) →
    ts.ownNames = (ts.toList.map typeMention).map (·.name)
  | .nil => rfl
  | .cons t ts => by
    have ht := ownNames_typeName t
    have hts := ownNames_types ts
    simp only [ownNames] at ht hts ⊢
    simp only [outerNames, ht, hts, toList_cons, List.map_cons, List.singleton_append]

theorem ownNames_extendsClause : (n : Node .extendsClause) → n.ownNames = [n.superclass.name]
  | .node _ (.slot _ (.slot type .done)) =>
    ownNames_node (by decide) (outerNames_unspoken rfl
      (outerNames_last rfl (ownNames_typeName type) rfl))

theorem ownNames_withClause : (n : Node .withClause) → n.ownNames = n.mixins.map (·.name)
  | .node _ (.slot _ (.slot types .done)) =>
    ownNames_node (by decide) (outerNames_unspoken rfl
      (outerNames_last rfl (ownNames_types types) rfl))

theorem ownNames_implementsClause : (n : Node .implementsClause) →
    n.ownNames = n.interfaces.map (·.name)
  | .node _ (.slot _ (.slot types .done)) =>
    ownNames_node (by decide) (outerNames_unspoken rfl
      (outerNames_last rfl (ownNames_types types) rfl))

theorem ownNames_extending : (t : Tree (.optional (.node .extendsClause))) →
    t.ownNames = (t.toOption.map superclass).toList.map (·.name)
  | .absent => rfl
  | .present clause => ownNames_extendsClause clause

theorem ownNames_mixing : (t : Tree (.optional (.node .withClause))) →
    t.ownNames = ((t.toOption.map mixins).getD []).map (·.name)
  | .absent => rfl
  | .present clause => ownNames_withClause clause

theorem ownNames_implementing : (t : Tree (.optional (.node .implementsClause))) →
    t.ownNames = ((t.toOption.map interfaces).getD []).map (·.name)
  | .absent => rfl
  | .present clause => ownNames_implementsClause clause

theorem claims_classDeclaration : (body : Tree NodeKind.classDeclaration.form) →
    (node _ body).claims = body.outerNames (node _ body).spokenFields.contains false
  | .slot _ (.slot _ (.slot _ (.slot _ (.slot extending (.slot mixing
      (.slot implementing (.slot _ .done))))))) => by
    simp only [claims, claims.headerNames, List.map_append, List.append_assoc]
    refine Eq.symm ?_
    iterate 4 refine outerNames_unspoken rfl ?_
    refine outerNames_spoken rfl (ownNames_extending extending) ?_
    refine outerNames_spoken rfl (ownNames_mixing mixing) ?_
    exact outerNames_last rfl (ownNames_implementing implementing) (outerNames_unspoken rfl rfl)

theorem claims_classTypeAlias : (body : Tree NodeKind.classTypeAlias.form) →
    (node _ body).claims = body.outerNames (node _ body).spokenFields.contains false
  | .slot _ (.slot _ (.slot _ (.slot _ (.slot type (.slot mixing
      (.slot implementing (.slot _ .done))))))) => by
    simp only [claims, claims.headerNames, List.map_append, List.append_assoc]
    refine Eq.symm ?_
    iterate 4 refine outerNames_unspoken rfl ?_
    refine outerNames_spoken rfl (ownNames_typeName type) ?_
    refine outerNames_spoken rfl (ownNames_withClause mixing) ?_
    exact outerNames_last rfl (ownNames_implementing implementing) (outerNames_unspoken rfl rfl)

theorem claims_constructorFieldInitializer :
    (body : Tree NodeKind.constructorFieldInitializer.form) →
    (node _ body).claims = body.outerNames (node _ body).spokenFields.contains false
  | .slot _ (.slot name (.slot _ (.slot _ .done))) => by
    refine (outerNames_unspoken rfl ?_).symm
    exact outerNames_last rfl (ownNames_simpleIdentifier name)
      (outerNames_unspoken rfl (outerNames_unspoken rfl rfl))

theorem claims_methodInvocation : (body : Tree NodeKind.methodInvocation.form) →
    (node _ body).claims = body.outerNames (node _ body).spokenFields.contains false
  | .slot _ (.slot _ (.slot name (.slot _ .done))) => by
    refine (outerNames_unspoken rfl (outerNames_unspoken rfl ?_)).symm
    exact outerNames_last rfl (ownNames_simpleIdentifier name) (outerNames_unspoken rfl rfl)

theorem ownNames_name : (t : Tree (.optional (.node .simpleIdentifier))) →
    t.ownNames = (t.toOption.map reference).toList
  | .absent => rfl
  | .present name => ownNames_simpleIdentifier name

theorem claims_redirectingConstructorInvocation :
    (body : Tree NodeKind.redirectingConstructorInvocation.form) →
    (node _ body).claims = body.outerNames (node _ body).spokenFields.contains false
  | .slot _ (.slot .absent (.slot _ (.slot _ (.slot _ .done)))) => (outerNames_none _).symm
  | .slot _ (.slot (.present _) (.slot name (.slot _ (.slot _ .done)))) => by
    refine (outerNames_unspoken rfl (outerNames_unspoken rfl ?_)).symm
    exact outerNames_last rfl (ownNames_name name)
      (outerNames_unspoken rfl (outerNames_unspoken rfl rfl))

theorem claims_superConstructorInvocation :
    (body : Tree NodeKind.superConstructorInvocation.form) →
    (node _ body).claims = body.outerNames (node _ body).spokenFields.contains false
  | .slot _ (.slot .absent (.slot _ (.slot _ (.slot _ .done)))) => (outerNames_none _).symm
  | .slot _ (.slot (.present _) (.slot name (.slot _ (.slot _ .done)))) => by
    refine (outerNames_unspoken rfl (outerNames_unspoken rfl ?_)).symm
    exact outerNames_last rfl (ownNames_name name)
      (outerNames_unspoken rfl (outerNames_unspoken rfl rfl))

theorem claims_constructorName :
    (body : Tree NodeKind.constructorName.form) →
    (node _ body).claims = body.outerNames (node _ body).spokenFields.contains false
  | .slot type (.slot .absent (.slot _ (.slot _ .done))) => by
    refine (outerNames_last rfl (ownNames_typeName type) ?_).symm
    exact outerNames_unspoken rfl (outerNames_unspoken rfl (outerNames_unspoken rfl rfl))
  | .slot type (.slot (.present _) (.slot name (.slot _ .done))) => by
    refine (outerNames_spoken rfl (ownNames_typeName type) (outerNames_unspoken rfl ?_)).symm
    exact outerNames_last rfl (ownNames_name name) (outerNames_unspoken rfl rfl)

/-- A construct speaks for the names in its spoken fields and for no others. -/
theorem claims_eq {k : NodeKind} (body : Tree k.form) :
    (node k body).claims = body.outerNames (node k body).spokenFields.contains false := by
  cases k with
  | classDeclaration => exact claims_classDeclaration body
  | classTypeAlias => exact claims_classTypeAlias body
  | constructorFieldInitializer => exact claims_constructorFieldInitializer body
  | redirectingConstructorInvocation => exact claims_redirectingConstructorInvocation body
  | superConstructorInvocation => exact claims_superConstructorInvocation body
  | methodInvocation => exact claims_methodInvocation body
  | constructorName => exact claims_constructorName body
  | _ => exact (outerNames_none body).symm

theorem nodes_simpleIdentifier : (body : Tree NodeKind.simpleIdentifier.form) → body.nodes = []
  | .slot (.token _) (.slot .absent .done) => rfl
  | .slot (.token _) (.slot (.present (.element _)) .done) => rfl

theorem places_simpleIdentifier (fields : String → Bool) (spoken : Bool) :
    (body : Tree NodeKind.simpleIdentifier.form) → body.places fields spoken = []
  | .slot (.token _) (.slot .absent .done) => rfl
  | .slot (.token _) (.slot (.present (.element _)) .done) => rfl

theorem references_simpleIdentifier (body : Tree NodeKind.simpleIdentifier.form) :
    (node .simpleIdentifier body).references = [reference (node _ body)] := by
  simp [references, nodes, nodes_simpleIdentifier, SomeNode.reference?]

theorem references_node {k : NodeKind} (body : Tree k.form) (hk : k ≠ .simpleIdentifier) :
    (node k body).references = body.references := by
  simp [references, nodes, SomeNode.reference?_eq_none _ hk]

theorem references_cons {f : Form} (x : Tree f) (xs : Tree (.many f)) :
    (cons x xs).references = x.references ++ xs.references := by
  simp [references, nodes]

theorem references_slot {name : String} {omissible : Bool} {f rest : Form} (x : Tree f)
    (xs : Tree rest) :
    (slot x xs : Tree (.slot name omissible f rest)).references =
      x.references ++ xs.references := by
  simp [references, nodes]

theorem claims_subset {k : NodeKind} (body : Tree k.form) :
    (node k body).claims ⊆ body.references := by
  rw [claims_eq]
  exact outerNames_subset _ _ _

/-- Behind a tree, what was claimed before it is left, less the references in it. Every claim
made inside is used up inside. -/
theorem mem_foldl_claimedBehind {f : Form} (t : Tree f) (claimed : List UInt32) (a : UInt32) :
    a ∈ t.nodes.foldl SomeNode.claimedBehind claimed ↔
      a ∈ claimed ∧ a ∉ t.references.map Identifier.offset := by
  induction t generalizing claimed with
  | node k body ih =>
    by_cases hk : k = .simpleIdentifier
    · subst hk
      simp [nodes, nodes_simpleIdentifier, references_simpleIdentifier, SomeNode.claimedBehind,
        SomeNode.reference?]
    · rw [nodes, List.foldl_cons, ih, references_node body hk]
      have hsub : a ∈ (node k body).claims.map Identifier.offset →
          a ∈ body.references.map Identifier.offset :=
        fun h => List.map_subset _ (claims_subset body) h
      simp only [SomeNode.claimedBehind, SomeNode.reference?_eq_none _ hk, List.mem_append]
      tauto
  | present t ih => exact ih claimed
  | cons x xs ihx ihxs =>
    rw [nodes, List.foldl_append, ihxs, ihx, references_cons, List.map_append, List.mem_append]
    tauto
  | slot x xs ihx ihxs =>
    rw [nodes, List.foldl_append, ihxs, ihx, references_slot, List.map_append, List.mem_append]
    tauto
  | here t ih => exact ih claimed
  | there t ih => exact ih claimed
  | _ => simp [nodes, references]

def ClaimsAmong (claimed : List UInt32) (refs names : List Identifier) : Prop :=
  ∀ i ∈ refs, i.offset ∈ claimed ↔ i.offset ∈ names.map Identifier.offset

section Append

variable {claimed : List UInt32} {refs refs' names names' : List Identifier}

theorem offset_not_mem_right (hd : ((refs ++ refs').map Identifier.offset).Nodup)
    {i : Identifier} (hi : i ∈ refs) (hn : names' ⊆ refs') :
    i.offset ∉ names'.map Identifier.offset := by
  rw [List.map_append] at hd
  intro h
  exact List.disjoint_of_nodup_append hd (List.mem_map_of_mem hi) (List.map_subset _ hn h)

theorem offset_not_mem_left (hd : ((refs ++ refs').map Identifier.offset).Nodup)
    {i : Identifier} (hi : i ∈ refs') (hn : names ⊆ refs) :
    i.offset ∉ names.map Identifier.offset := by
  rw [List.map_append] at hd
  intro h
  exact List.disjoint_of_nodup_append hd (List.map_subset _ hn h) (List.mem_map_of_mem hi)

theorem ClaimsAmong.left (h : ClaimsAmong claimed (refs ++ refs') (names ++ names'))
    (hd : ((refs ++ refs').map Identifier.offset).Nodup) (hn : names' ⊆ refs') :
    ClaimsAmong claimed refs names := by
  intro i hi
  rw [h i (List.mem_append_left _ hi), List.map_append, List.mem_append,
    or_iff_left (offset_not_mem_right hd hi hn)]

theorem ClaimsAmong.right (h : ClaimsAmong claimed (refs ++ refs') (names ++ names'))
    (hd : ((refs ++ refs').map Identifier.offset).Nodup) (hn : names ⊆ refs)
    {behind : List UInt32}
    (hbehind : ∀ a, a ∈ behind ↔ a ∈ claimed ∧ a ∉ refs.map Identifier.offset) :
    ClaimsAmong behind refs' names' := by
  intro i hi
  rw [hbehind, and_iff_left (offset_not_mem_left hd hi (List.Subset.refl _)),
    h i (List.mem_append_right _ hi), List.map_append, List.mem_append,
    or_iff_right (offset_not_mem_left hd hi hn)]

end Append

theorem ClaimsAmong.enter {k : NodeKind} {body : Tree k.form} {claimed : List UInt32}
    {spoken : Bool}
    (h : ClaimsAmong claimed body.references
      (body.outerNames (fun name => spoken && k.namingFields.contains name) false)) :
    ClaimsAmong ((node k body).claims.map Identifier.offset ++ claimed) body.references
      (body.outerNames ((node k body).speaksFor spoken) false) := by
  intro i hi
  have hor : ∀ j, j ∈ body.outerNames ((node k body).speaksFor spoken) false ↔
      j ∈ (node k body).claims ∨
        j ∈ body.outerNames (fun name => spoken && k.namingFields.contains name) false := by
    intro j
    rw [claims_eq]
    exact mem_outerNames_or body _ _ false false j
  rw [List.mem_append, h i hi]
  simp only [List.mem_map, hor]
  constructor
  · rintro (⟨j, hj, he⟩ | ⟨j, hj, he⟩)
    · exact ⟨j, .inl hj, he⟩
    · exact ⟨j, .inr hj, he⟩
  · rintro ⟨j, hj | hj, he⟩
    · exact .inl ⟨j, hj, he⟩
    · exact .inr ⟨j, hj, he⟩

/-- While no two references share an offset, a reference is claimed when it is met just if its
place is spoken for. -/
theorem offers_eq_placeUses (m : Model) (o : Options) {f : Form} (t : Tree f)
    (fields : String → Bool) (spoken : Bool) (claimed : List UInt32)
    (hd : (t.references.map Identifier.offset).Nodup)
    (hc : ClaimsAmong claimed t.references (t.outerNames fields spoken)) :
    offers m o t.nodes claimed = placeUses m o (t.places fields spoken) := by
  induction t generalizing fields spoken claimed with
  | node k body ih =>
    by_cases hk : k = .simpleIdentifier
    · subst hk
      have hmem : (reference (node _ body)).offset ∈ claimed ↔ spoken = true := by
        rw [hc _ (by simp [references_simpleIdentifier])]
        have hnames : (node .simpleIdentifier body).outerNames fields spoken =
            if spoken then [reference (node _ body)] else [] := by
          cases spoken
          · simp [outerNames]
          · exact ownNames_simpleIdentifier (node _ body)
        rw [hnames]
        cases spoken <;> simp
      simp [nodes, nodes_simpleIdentifier, offers, places, places_simpleIdentifier, placeUses,
        SomeNode.shown, SomeNode.usesAt, hmem]
    · rw [references_node body hk] at hd hc
      have hc' : ClaimsAmong claimed body.references
          (body.outerNames (fun name => spoken && k.namingFields.contains name) false) := by
        simpa [outerNames, SomeNode.reference?_eq_none _ hk] using hc
      have hbody := ih _ _ _ hd hc'.enter
      simp only [nodes, offers, places, placeUses, List.flatMap_cons]
      rw [SomeNode.shown_of_ne m o claimed _ hk, SomeNode.usesAt_of_ne m o _ spoken hk]
      simp only [SomeNode.claimedBehind, SomeNode.reference?_eq_none _ hk]
      rw [hbody]
      rfl
  | present t ih => exact ih fields spoken claimed hd hc
  | cons x xs ihx ihxs =>
    rw [references_cons] at hd hc
    have hcx := hc.left hd (outerNames_subset xs _ _)
    have hcxs := hc.right hd (outerNames_subset x _ _) (mem_foldl_claimedBehind x claimed)
    rw [List.map_append] at hd
    rw [nodes, offers_append, places, placeUses, List.flatMap_append,
      ihx _ _ _ hd.of_append_left hcx, ihxs _ _ _ hd.of_append_right hcxs]
    rfl
  | slot x xs ihx ihxs =>
    rw [references_slot] at hd hc
    have hcx := hc.left hd (outerNames_subset xs _ _)
    have hcxs := hc.right hd (outerNames_subset x _ _) (mem_foldl_claimedBehind x claimed)
    rw [List.map_append] at hd
    rw [nodes, offers_append, places, placeUses, List.flatMap_append,
      ihx _ _ _ hd.of_append_left hcx, ihxs _ _ _ hd.of_append_right hcxs]
    rfl
  | here t ih => exact ih fields spoken claimed hd hc
  | there t ih => exact ih fields spoken claimed hd hc
  | _ => rfl

theorem candidates_eq_classified (m : Model) (o : Options) {unit : Node .compilationUnit}
    (hd : (unit.references.map Identifier.offset).Nodup) :
    unit.candidates m o = unit.classified m o := by
  refine offers_eq_placeUses m o unit _ _ [] hd ?_
  intro i _
  simp

end Tree

namespace Sample

def model : Model := ⟨[
  { kind := .library, name := "", nameOffset := 0, sourceUri := some "a",
    definingUnit := some ⟨1⟩ },
  { kind := .compilationUnit, name := "", nameOffset := 0, sourceUri := some "a",
    enclosing := some ⟨0⟩ },
  { kind := .classType, name := "A", nameOffset := 6, enclosing := some ⟨1⟩ },
  { kind := .library, name := "", nameOffset := 0, sourceUri := some "b",
    definingUnit := some ⟨4⟩ },
  { kind := .compilationUnit, name := "", nameOffset := 0, sourceUri := some "b",
    enclosing := some ⟨3⟩ },
  { kind := .classType, name := "B", nameOffset := 6, enclosing := some ⟨4⟩ }]⟩

def unit (root : ElementId) (name superclass argument : Identifier) : Node .compilationUnit :=
  let type := Tree.withTypeArguments (.simpleType superclass) [.simpleType argument] 19
  let extending : Node .extendsClause :=
    .node _ (.slot (.token ⟨"extends", 8⟩) (.slot type .done))
  let declared : Node .classDeclaration :=
    .node _ (.slot .absent (.slot (.token ⟨"class", 0⟩) (.slot (.declaredIdentifier name)
      (.slot .nil (.slot (.present extending) (.slot .absent (.slot .absent
        (.slot .nil .done))))))))
  Tree.addDeclaration (.emptyUnit root) (.node _ (.here declared))

def unitB : Node .compilationUnit :=
  unit ⟨4⟩ ⟨⟨"B", 6⟩, some ⟨5⟩⟩ ⟨⟨"A", 16⟩, some ⟨2⟩⟩ ⟨⟨"A", 18⟩, some ⟨2⟩⟩

def unitA : Node .compilationUnit :=
  unit ⟨1⟩ ⟨⟨"A", 6⟩, some ⟨2⟩⟩ ⟨⟨"B", 16⟩, some ⟨5⟩⟩ ⟨⟨"A", 18⟩, some ⟨2⟩⟩

end Sample

end UsageIndex
