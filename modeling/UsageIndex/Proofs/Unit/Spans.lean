import UsageIndex.Proofs.Unit.Classification
import UsageIndex.Proofs.Unit.Redirects

/-!
Where recorded uses stand. A location is a token, the stretch between two places where tokens begin
or end, or an empty stretch at such a place; so if no token of a unit runs over the range of
offsets, no location does, and none leaves the stretch that the tokens of the unit take up.
-/

set_option autoImplicit false

namespace UsageIndex

/-- No token reaches beyond the offsets that there are. -/
def TokensFit (tokens : List Token) : Prop :=
  ∀ t ∈ tokens, t.offset.toNat + t.lexeme.utf8ByteSize < UInt32.size

def IsEdge (tokens : List Token) (place : Nat) : Prop :=
  ∃ t ∈ tokens, place = t.offset.toNat ∨ place = t.offset.toNat + t.lexeme.utf8ByteSize

/-- The location begins and ends at edges of tokens, within the range of offsets. -/
structure Location.Delimited (tokens : List Token) (l : Location) : Prop where
  start : IsEdge tokens l.offset.toNat
  inRange : l.offset.toNat + l.length.toNat < UInt32.size
  stop : IsEdge tokens (l.offset.toNat + l.length.toNat)

/-- All of the tokens lie between these places. -/
def TokensWithin (tokens : List Token) (first last : Nat) : Prop :=
  ∀ t ∈ tokens, first ≤ t.offset.toNat ∧ t.offset.toNat + t.lexeme.utf8ByteSize ≤ last

variable {ts ts' : List Token}

theorem IsEdge.within {place first last : Nat} (h : IsEdge ts place)
    (hts : TokensWithin ts first last) : first ≤ place ∧ place ≤ last := by
  obtain ⟨t, ht, hplace⟩ := h
  have := hts t ht
  omega

def IsBound (tokens : List Token) (offset : UInt32) : Prop :=
  ∃ t ∈ tokens, offset = t.offset ∨ offset = t.stop

theorem IsBound.mono {n : UInt32} (h : IsBound ts n) (hts : ts ⊆ ts') : IsBound ts' n := by
  obtain ⟨t, ht, hn⟩ := h
  exact ⟨t, hts ht, hn⟩

theorem isBound_offset {t : Token} (h : t ∈ ts) : IsBound ts t.offset := ⟨t, h, .inl rfl⟩

theorem isBound_stop {t : Token} (h : t ∈ ts) : IsBound ts t.stop := ⟨t, h, .inr rfl⟩

theorem TokensFit.toNat_length (h : TokensFit ts) {t : Token} (ht : t ∈ ts) :
    t.length.toNat = t.lexeme.utf8ByteSize := by
  have := h t ht
  rw [Token.length, UInt32.toNat_ofNat_of_lt']
  exact Nat.lt_of_le_of_lt (Nat.le_add_left _ _) this

theorem TokensFit.toNat_stop (h : TokensFit ts) {t : Token} (ht : t ∈ ts) :
    t.stop.toNat = t.offset.toNat + t.lexeme.utf8ByteSize := by
  rw [Token.stop, UInt32.toNat_add, h.toNat_length ht, Nat.mod_eq_of_lt (h t ht)]

theorem IsBound.isEdge {n : UInt32} (h : IsBound ts n) (hts : TokensFit ts) :
    IsEdge ts n.toNat := by
  obtain ⟨t, ht, rfl | rfl⟩ := h
  · exact ⟨t, ht, .inl rfl⟩
  · exact ⟨t, ht, .inr (hts.toNat_stop ht)⟩

namespace Location

inductive MadeOf (tokens : List Token) : Location → Prop where
  | token {t : Token} (h : t ∈ tokens) : MadeOf tokens t.location
  | stretch {start stop : UInt32} (hstart : IsBound tokens start) (hstop : IsBound tokens stop) :
      MadeOf tokens (.between start stop)
  | empty {anchor : UInt32} (h : IsBound tokens anchor) : MadeOf tokens ⟨anchor, 0⟩

theorem MadeOf.mono {l : Location} (h : l.MadeOf ts) (hts : ts ⊆ ts') : l.MadeOf ts' := by
  cases h with
  | token ht => exact .token (hts ht)
  | stretch hstart hstop => exact .stretch (hstart.mono hts) (hstop.mono hts)
  | empty hanchor => exact .empty (hanchor.mono hts)

theorem toNat_between (start stop : UInt32) :
    (between start stop).offset.toNat + (between start stop).length.toNat =
      if start ≤ stop then stop.toNat else start.toNat := by
  unfold between
  split
  · rename_i hle
    have hle' := UInt32.le_iff_toNat_le.1 hle
    simp only [UInt32.toNat_sub_of_le _ _ hle]
    omega
  · simp

theorem MadeOf.delimited {l : Location} (h : l.MadeOf ts) (hts : TokensFit ts) :
    l.Delimited ts := by
  cases h with
  | @token t ht =>
    have hstop : t.location.offset.toNat + t.location.length.toNat =
        t.offset.toNat + t.lexeme.utf8ByteSize := by
      simp only [Token.location, hts.toNat_length ht]
    exact ⟨⟨t, ht, .inl rfl⟩, hstop ▸ hts t ht, ⟨t, ht, .inr hstop⟩⟩
  | @stretch start stop hstart hstop =>
    refine ⟨hstart.isEdge hts, ?_, ?_⟩ <;> rw [toNat_between] <;> split
    · exact stop.toNat_lt
    · exact start.toNat_lt
    · exact hstop.isEdge hts
    · exact hstart.isEdge hts
  | @empty anchor hanchor => exact ⟨hanchor.isEdge hts, anchor.toNat_lt, hanchor.isEdge hts⟩

theorem Delimited.within {l : Location} (h : l.Delimited ts) {first last : Nat}
    (hts : TokensWithin ts first last) :
    first ≤ l.offset.toNat ∧ l.offset.toNat + l.length.toNat ≤ last :=
  ⟨(h.start.within hts).1, (h.stop.within hts).2⟩

end Location

theorem ConstructorMention.madeOf_location {c : ConstructorMention} (hanchor : IsBound ts c.anchor)
    (hperiod : ∀ t ∈ c.period, t ∈ ts) (hname : ∀ i ∈ c.name, i.token ∈ ts) :
    c.location.MadeOf ts := by
  unfold location
  split
  · rename_i period name hp hn
    exact .stretch (isBound_offset (hperiod period hp)) (isBound_stop (hname name hn))
  · exact .empty hanchor

namespace Tree

theorem tokens_subset_of_nodes {f : Form} (t : Tree f) {n : SomeNode} (hn : n ∈ t.nodes) :
    n.node.tokens ⊆ t.tokens := by
  induction t with
  | node k body ih =>
    rcases List.mem_cons.1 hn with rfl | hbody
    · exact List.Subset.refl _
    · exact ih hbody
  | present t ih => exact ih hn
  | cons x xs ihx ihxs | slot x xs ihx ihxs =>
    rcases List.mem_append.1 hn with hx | hxs
    · exact List.subset_append_of_subset_left _ (ihx hx)
    · exact List.subset_append_of_subset_right _ (ihxs hxs)
  | here t ih => exact ih hn
  | there t ih => exact ih hn
  | _ => cases hn

theorem mem_tokens_of_toToken? : {t : Tree (.optional .token)} → {token : Token} →
    token ∈ t.toToken? → token ∈ t.tokens
  | .present x, _, rfl => toToken_mem_tokens x

theorem token_of_name : {t : Tree (.optional (.node .simpleIdentifier))} → {i : Identifier} →
    i ∈ t.toOption.map reference → i.token ∈ t.tokens
  | .present n, _, rfl => (holds_reference n).token

theorem token_firstIdentifier : (t : Tree .identifier) → t.firstIdentifier.token ∈ t.tokens
  | .here n => (holds_reference n).token
  | .there (.here (.node _ (.slot n (.slot _ (.slot _ .done))))) =>
    IsPart.tokens_subset ⟨_, .there (.here (.node (.head .self)))⟩ (holds_reference n).token

theorem isBound_typeStart : (n : Node .typeName) → IsBound n.tokens n.typeMention.start
  | .node _ (.slot name (.slot _ (.slot _ .done))) =>
    isBound_offset (IsPart.tokens_subset ⟨_, .node (.head .self)⟩ (token_firstIdentifier name))

theorem isBound_typeStop : (n : Node .typeName) → IsBound n.tokens n.typeMention.stop
  | .node _ (.slot name (.slot _ (.slot .absent .done))) =>
    isBound_stop (IsPart.tokens_subset ⟨_, .node (.head .self)⟩ (holds_lastIdentifier name).token)
  | .node _ (.slot _ (.slot _ (.slot (.present bracket) .done))) =>
    isBound_stop (IsPart.tokens_subset ⟨_, .node (.tail (.tail (.head (.present .self))))⟩
      (toToken_mem_tokens bracket))

theorem madeOf_typeMention (n : Node .typeName) : n.typeMention.location.MadeOf n.tokens :=
  .stretch (isBound_typeStart n) (isBound_stop (holds_typeMention n).token)

theorem HasType.madeOf {f : Form} {t : Tree f} {type : TypeMention} (h : t.HasType type) :
    type.location.MadeOf t.tokens := by
  obtain ⟨n, hn, rfl⟩ := h
  exact (madeOf_typeMention n).mono hn.tokens_subset

theorem madeOf_fieldFormal : (n : Node .fieldFormalParameter) →
    n.fieldFormal.location.MadeOf n.tokens
  | .node _ (.slot type (.slot this (.slot _ (.slot parameter .done)))) => by
    have hstop := (holds_declaration parameter).token
    refine .stretch ?_ (isBound_stop (IsPart.tokens_subset
      ⟨_, .node (.tail (.tail (.tail (.head .self))))⟩ hstop))
    cases type with
    | absent =>
      exact isBound_offset (IsPart.tokens_subset ⟨_, .node (.tail (.head .self))⟩
        (toToken_mem_tokens this))
    | present type =>
      exact (isBound_typeStart type).mono (IsPart.tokens_subset ⟨_, .node (.head (.present .self))⟩)

end Tree

namespace SomeNode

theorem isBound_anchor {n : SomeNode} {c : ConstructorMention}
    (h : n.constructorMention? = some c) : IsBound n.node.tokens c.anchor := by
  obtain ⟨n⟩ := n
  rename_i k
  cases k with
  | redirectingConstructorInvocation | superConstructorInvocation =>
    match n, h with
    | .node _ (.slot keyword (.slot _ (.slot _ (.slot _ (.slot _ .done))))), rfl =>
      exact isBound_stop (Tree.IsPart.tokens_subset ⟨_, .node (.head .self)⟩
        (Tree.toToken_mem_tokens keyword))
  | constructorName =>
    match n, h with
    | .node _ (.slot type (.slot _ (.slot _ (.slot _ .done)))), rfl =>
      exact (Tree.isBound_typeStop type).mono (Tree.IsPart.tokens_subset ⟨_, .node (.head .self)⟩)
  | _ => cases h

theorem madeOf_constructorMention? {n : SomeNode} {c : ConstructorMention}
    (h : n.constructorMention? = some c) : c.location.MadeOf n.node.tokens := by
  obtain ⟨period, name, -, hperiod, hname, -, ⟨_, hp⟩, ⟨_, hn⟩, -⟩ := parts_of_constructorMention? h
  refine ConstructorMention.madeOf_location (isBound_anchor h) ?_ ?_
  · intro token htoken
    rw [hperiod] at htoken
    exact hp.tokens_subset (Tree.mem_tokens_of_toToken? htoken)
  · intro i hi
    rw [hname] at hi
    exact hn.tokens_subset (Tree.token_of_name hi)

end SomeNode

namespace Candidate

variable {m : Model} {c : Candidate}

theorem location_of {target : Option ElementId} {kind : RelationKind} {location : Location}
    (h : c ∈ of target kind location) : c.location = location := by
  obtain ⟨e, -, rfl⟩ := Option.map_eq_some_iff.1 (Option.mem_toList.1 h)
  rfl

theorem madeOf_of {target : Option ElementId} {kind : RelationKind} {location : Location}
    (h : c ∈ of target kind location) (hlocation : location.MadeOf ts) : c.location.MadeOf ts :=
  location_of h ▸ hlocation

theorem madeOf_of_holds {token : Token} {target : Option ElementId} {kind : RelationKind}
    {f : Form} {t : Tree f} (h : c ∈ of target kind token.location) (ht : t.Holds token target) :
    c.location.MadeOf t.tokens :=
  madeOf_of h (.token ht.token)

theorem madeOf_ofLink {d : LinkDirective} {n : SomeNode} (h : c ∈ ofLink m d)
    (hn : n.link? = some d) : c.location.MadeOf n.node.tokens := by
  have huri : d.uri ∈ n.node.tokens := (SomeNode.holds_of_link? hn).token
  rcases List.mem_append.1 h with hc | hc <;> exact madeOf_of hc (.token huri)

theorem madeOf_ofDirective {d : Directive} {n : SomeNode} (h : c ∈ ofDirective d)
    (hn : n.part? = some d) : c.location.MadeOf n.node.tokens := by
  obtain ⟨hkeyword, hsemicolon⟩ := SomeNode.holds_of_part? hn
  exact madeOf_of h (.stretch (isBound_offset hkeyword.token) (isBound_stop hsemicolon.token))

end Candidate

namespace Tree

variable {m : Model} {o : Options} {c : Candidate}

theorem madeOf_of_constructUses {k : NodeKind} (n : Node k) (h : c ∈ n.constructUses m o) :
    c.location.MadeOf n.tokens := by
  cases k with
  | compilationUnitMember =>
    simp only [constructUses] at h
    split at h
    · obtain ⟨i, hi, hc⟩ := List.mem_flatMap.1 h
      exact Candidate.madeOf_of_holds hc (holds_of_declaredNames hi)
    · cases h
  | classDeclaration =>
    rcases Candidate.mem_ofHeader h with hc | ⟨type, kind, htype, hc⟩
    · unfold impliedSupertype at hc
      split at hc
      · exact Candidate.madeOf_of hc (.token (holds_className n).token)
      · cases hc
    · exact Candidate.madeOf_of hc (hasType_of_classHeader htype).madeOf
  | classTypeAlias =>
    rcases Candidate.mem_ofHeader h with hc | ⟨type, kind, htype, hc⟩
    · cases hc
    · exact Candidate.madeOf_of hc (hasType_of_aliasHeader htype).madeOf
  | fieldFormalParameter => exact Candidate.madeOf_of h (madeOf_fieldFormal n)
  | constructorFieldInitializer => exact Candidate.madeOf_of_holds h (holds_initializedField n)
  | redirectingConstructorInvocation | superConstructorInvocation | constructorName =>
    exact Candidate.madeOf_of h (SomeNode.madeOf_constructorMention? (n := ⟨n⟩) rfl)
  | importDirective | exportDirective => exact Candidate.madeOf_ofLink (n := ⟨n⟩) h rfl
  | partDirective | partOfDirective => exact Candidate.madeOf_ofDirective (n := ⟨n⟩) h rfl
  | binaryExpression | assignmentExpression | prefixExpression | postfixExpression
  | indexExpression =>
    exact Candidate.madeOf_of_holds h (SomeNode.holds_of_operation? (n := ⟨n⟩) rfl)
  | methodInvocation => exact Candidate.madeOf_of_holds h (holds_methodName n)
  | _ => cases h

theorem madeOf_of_referenceUses {n : Node .simpleIdentifier} (h : c ∈ n.referenceUses m) :
    c.location.MadeOf n.tokens := by
  unfold referenceUses at h
  split at h
  · exact Candidate.madeOf_of_holds h (holds_reference n)
  · cases h

/-- What a unit offers is located at tokens of the unit. -/
theorem madeOf_of_candidates {unit : Node .compilationUnit} (h : c ∈ unit.candidates m o) :
    c.location.MadeOf unit.tokens := by
  obtain ⟨⟨n⟩, hn, claimed, hc⟩ := mem_offers h
  rename_i k
  refine Location.MadeOf.mono ?_ (unit.tokens_subset_of_nodes hn)
  by_cases hk : k = .simpleIdentifier
  · subst hk
    simp only [SomeNode.shown] at hc
    split at hc
    · cases hc
    · exact madeOf_of_referenceUses hc
  · rw [SomeNode.shown_of_ne m o claimed n hk] at hc
    exact madeOf_of_constructUses n hc

end Tree

namespace Recording

theorem relations_add (r : Recording) (m : Model) (c : Candidate) :
    ∃ new, (r.add m c).2.unit.relations = r.unit.relations ++ new ∧
      ∀ relation ∈ new, relation.location = c.location := by
  unfold add
  split
  · exact ⟨_, rfl, by simp⟩
  · exact ⟨[], by simp⟩

/-- Each relation stands where the use stands that it was recorded for. -/
theorem relations_addAll (r : Recording) (m : Model) (cs : List Candidate) :
    ∃ new, (r.addAll m cs).unit.relations = r.unit.relations ++ new ∧
      ∀ relation ∈ new, ∃ c ∈ cs, relation.location = c.location := by
  induction cs generalizing r with
  | nil => exact ⟨[], by simp [addAll], by simp⟩
  | cons c cs ih =>
    obtain ⟨later, hlater, hlocations⟩ := ih (if m.isFiltered c.target then r else (r.add m c).2)
    obtain ⟨first, hfirst, hlocation⟩ : ∃ new,
        (if m.isFiltered c.target then r else (r.add m c).2).unit.relations =
          r.unit.relations ++ new ∧ ∀ relation ∈ new, relation.location = c.location := by
      split
      · exact ⟨[], by simp⟩
      · exact r.relations_add m c
    refine ⟨first ++ later, ?_, ?_⟩
    · rw [← List.append_assoc, ← hfirst, ← hlater]
      rfl
    · intro relation hrelation
      rcases List.mem_append.1 hrelation with h | h
      · exact ⟨c, List.mem_cons_self, hlocation relation h⟩
      · obtain ⟨c', hc', hl⟩ := hlocations relation h
        exact ⟨c', List.mem_cons_of_mem _ hc', hl⟩

end Recording

/-- What is recorded for a unit begins and ends at edges of the unit's tokens, and lies within
each stretch in which they lie, in whatever order they stand. -/
theorem contribute_delimited (r : Recording) (m : Model) (o : Options)
    (unit : Node .compilationUnit)
    (hfits : ∀ t ∈ unit.tokens, t.offset.toNat + t.lexeme.utf8ByteSize < UInt32.size) :
    ∃ new, (r.contribute m o unit).unit.relations = r.unit.relations ++ new ∧
      ∀ relation ∈ new, relation.location.Delimited unit.tokens ∧
        ∀ first last, TokensWithin unit.tokens first last →
          first ≤ relation.location.offset.toNat ∧
            relation.location.offset.toNat + relation.location.length.toNat ≤ last := by
  obtain ⟨new, hnew, hlocations⟩ := r.relations_addAll m (unit.candidates m o)
  rw [← Recording.contribute_eq] at hnew
  refine ⟨new, hnew, ?_⟩
  intro relation hrelation
  obtain ⟨c, hc, hlocation⟩ := hlocations relation hrelation
  have hdelimited := (Tree.madeOf_of_candidates hc).delimited hfits
  rw [hlocation]
  exact ⟨hdelimited, fun _ _ => hdelimited.within⟩

namespace Sample

def reversedPart : Node .compilationUnit :=
  let library : Node .libraryIdentifier :=
    .node _ (.slot (.cons (.simpleIdentifier ⟨⟨"a", 9⟩, none⟩) .nil) .done)
  let directive : Node .partOfDirective :=
    .node _ (.slot (.token ⟨"part", 20⟩) (.slot (.token ⟨"of", 14⟩) (.slot library
      (.slot (.token ⟨";", 3⟩) (.slot (.present (.element ⟨1⟩)) .done)))))
  Tree.addDirective (.emptyUnit ⟨4⟩) (.node _ (.there (.there (.there (.there (.here directive))))))

end Sample

/-- From the keyword back to the semicolon there is nothing, so the use is an empty stretch at the
keyword. -/
theorem contribute_delimited_sample :
    let start : Recording := { tables := {}, unit := { key := ⟨⟨0⟩, ⟨0⟩⟩ } }
    (start.contribute Sample.model {} Sample.reversedPart).unit.relations.map (·.location) =
        [⟨20, 0⟩] ∧
      ∀ relation ∈ (start.contribute Sample.model {} Sample.reversedPart).unit.relations,
        relation.location.Delimited Sample.reversedPart.tokens ∧
          3 ≤ relation.location.offset.toNat ∧
            relation.location.offset.toNat + relation.location.length.toNat ≤ 24 := by
  intro start
  have hfits : ∀ t ∈ Sample.reversedPart.tokens,
      t.offset.toNat + t.lexeme.utf8ByteSize < UInt32.size := by decide
  have hwithin : TokensWithin Sample.reversedPart.tokens 3 24 := by
    unfold TokensWithin
    decide
  obtain ⟨new, hnew, hdelimited⟩ :=
    contribute_delimited start Sample.model {} Sample.reversedPart hfits
  refine ⟨by decide, ?_⟩
  intro relation hrelation
  rw [hnew] at hrelation
  exact ⟨(hdelimited relation hrelation).1, (hdelimited relation hrelation).2 3 24 hwithin⟩

end UsageIndex
