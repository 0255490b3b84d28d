import UsageIndex.Package.Builder
import UsageIndex.Proofs.Element.Written
import UsageIndex.Proofs.Tree.Spellings

/-!
Source trees are read back from what they are written as, for as long as the arrays and objects in
it do not nest too deep. What is written is one of the spellings of a tree, and none nests deeper
where it is read.
-/

set_option autoImplicit false

namespace UsageIndex

namespace Token

theorem spells_encode (t : Token) : t.Spells t.encode :=
  @Json.recordOf_record fieldNames [("lexeme", .string t.lexeme), ("offset", .ofWord t.offset)] rfl

theorem spellable_encode (t : Token) : t.encode.Spellable := by
  refine Json.spellable_record ?_
  simp [Json.spellable_string, Json.spellable_ofWord]

end Token

namespace Tree

def written {f : Form} : Tree f → List (String × Json)
  | @Tree.slot name _ _ _ x xs => (name, x.encode) :: xs.written
  | _ => []

theorem encode_eq_record {f : Form} (t : Tree f) (hf : f.isReadable = true)
    (hrecord : f.isRecord = true) :
    t.encode = .record t.written ∧ t.written.map Prod.fst = f.fieldNames := by
  induction t with
  | done => exact ⟨rfl, rfl⟩
  | slot x xs ihx ihxs =>
    simp only [Form.isReadable, Bool.and_eq_true] at hf
    obtain ⟨hxs, hnames⟩ := ihxs hf.1.2 hf.1.1.2
    simp [encode, written, hxs, Json.record, Form.fieldNames, hnames]
  | _ => cases hrecord

theorem encode_here {tag : String} {f rest : Form} (t : Tree f) (hf : f ≠ .nothing) :
    (here t : Tree (.either tag f rest)).encode = .record [(tag, t.encode)] := by
  cases t with
  | nothing => exact absurd rfl hf
  | _ => rfl

structure Encoded {f : Form} (t : Tree f) : Prop where
  whole : t.Spells t.encode.depth t.encode
  fields : f.isRecord = true →
    t.SpellsFields (Json.depthMembers t.encode.members) (t.written.map fun m => some m.2)

theorem Encoded.ofPart {f : Form} {t : Tree f} (hf : f.isRecord = false)
    (h : t.Spells t.encode.depth t.encode) : t.Encoded where
  whole := h
  fields hrecord := by simp [hf] at hrecord

theorem encoded {f : Form} (t : Tree f) (hf : f.isReadable = true) : t.Encoded := by
  induction t with
  | token t => exact .ofPart rfl (.token t.spells_encode)
  | element id => exact .ofPart rfl (.element id)
  | node k body ih => exact .ofPart rfl (.node (ih k.isReadable_form.1).whole)
  | absent => exact .ofPart rfl .absent
  | present t ih =>
    simp only [Form.isReadable, Bool.and_eq_true] at hf
    exact .ofPart rfl (.present (ih hf.1).whole)
  | nil => exact .ofPart rfl .nil
  | cons x xs ihx ihxs =>
    have hitems : xs.encode = .array xs.encode.items := by cases xs <;> rfl
    have htail := (ihxs hf).whole
    rw [hitems] at htail
    have hdepth : (cons x xs).encode.depth =
        max (x.encode.depth + 1) (Json.array xs.encode.items).depth := by
      simp only [encode, Json.depth, Json.depthItems]
      omega
    refine .ofPart rfl ?_
    rw [hdepth]
    exact .cons (ihx hf).whole htail
  | nothing => cases hf
  | done => exact ⟨.done (@Json.recordOf_record [] [] rfl), fun _ => .done⟩
  | @slot name omissible f rest x xs ihx ihxs =>
    have hparts := hf
    simp only [Form.isReadable, Bool.and_eq_true] at hparts
    obtain ⟨⟨⟨hx, hrecord⟩, hxs⟩, -⟩ := hparts
    have hfields : (slot x xs : Tree (.slot name omissible f rest)).SpellsFields _ _ :=
      .written (ihx hx).whole ((ihxs hxs).fields hrecord)
    obtain ⟨hencode, hnames⟩ := (slot x xs).encode_eq_record hf rfl
    refine ⟨.slot hfields ?_, fun _ => hfields⟩
    rw [hencode]
    exact Json.recordOf_record hnames
  | @here tag f rest t ih =>
    simp only [Form.isReadable, Bool.and_eq_true, Bool.or_eq_true, beq_iff_eq] at hf
    obtain ⟨⟨⟨ht, -⟩, -⟩, -⟩ := hf
    by_cases hnothing : f = .nothing
    · subst hnothing
      cases t
      exact .ofPart rfl .bare
    · have hdepth : (Json.record [(tag, t.encode)]).depth = t.encode.depth + 1 := by
        simp [Json.record, Json.depth, Json.depthMembers]
      refine .ofPart rfl ?_
      rw [encode_here t hnothing, hdepth]
      exact .here hnothing (ih (ht.resolve_left hnothing)).whole
  | there t ih =>
    simp only [Form.isReadable, Bool.and_eq_true] at hf
    exact .ofPart rfl (.there (ih hf.1.2).whole)

def ReadsBack {f : Form} (t : Tree f) : Prop :=
  ∀ limit, decodeWithin? limit f t.encode = if t.encode.depth ≤ limit then some t else none

theorem readsBack {f : Form} (t : Tree f) (hf : f.isReadable = true) : t.ReadsBack :=
  (t.readable hf).whole (t.encoded hf).whole

/-- No spelling of a tree nests deeper, where it is read, than what is written of the tree. -/
structure Deepest {f : Form} (t : Tree f) : Prop where
  whole : ∀ {d j}, t.Spells d j → d ≤ t.encode.depth
  fields : ∀ {d written}, t.SpellsFields d written → d ≤ Json.depthMembers t.encode.members

theorem Deepest.ofPart {f : Form} {t : Tree f} (hf : f.isRecord = false)
    (h : ∀ {d j}, t.Spells d j → d ≤ t.encode.depth) : t.Deepest where
  whole := h
  fields hwritten := absurd hwritten.isRecord (by simp [hf])

theorem deepest {f : Form} (t : Tree f) : t.Deepest := by
  induction t with
  | token t =>
    refine .ofPart rfl fun h => ?_
    cases h
    exact Nat.le_refl 1
  | element id =>
    refine .ofPart rfl fun h => ?_
    cases h
    exact Nat.le_refl 0
  | node k body ih =>
    refine .ofPart rfl fun h => ?_
    cases h with
    | node h => exact ih.whole h
  | absent =>
    refine .ofPart rfl fun h => ?_
    cases h
    exact Nat.le_refl 0
  | present t ih =>
    refine .ofPart rfl fun h => ?_
    cases h with
    | present h => exact ih.whole h
  | nil =>
    refine .ofPart rfl fun h => ?_
    cases h
    exact Nat.le_refl 1
  | cons x xs ihx ihxs =>
    have hitems : xs.encode = .array xs.encode.items := by cases xs <;> rfl
    refine .ofPart rfl fun h => ?_
    cases h with
    | cons hx hxs =>
      have hhead := ihx.whole hx
      have htail := ihxs.whole hxs
      rw [hitems] at htail
      simp only [encode, Json.depth, Json.depthItems] at htail ⊢
      omega
  | nothing =>
    refine .ofPart rfl fun h => ?_
    cases h
  | done =>
    refine ⟨fun h => ?_, fun h => ?_⟩
    · cases h
      exact Nat.le_refl 1
    · cases h
      exact Nat.le_refl 0
  | @slot name omissible f rest x xs ihx ihxs =>
    have hfields : ∀ {d written},
        (slot x xs : Tree (.slot name omissible f rest)).SpellsFields d written →
        d ≤ Json.depthMembers (slot x xs : Tree (.slot name omissible f rest)).encode.members := by
      intro d written h
      simp only [encode, Json.members_object, Json.depthMembers]
      cases h with
      | written hx hxs =>
        have hhead := ihx.whole hx
        have htail := ihxs.fields hxs
        omega
      | leftOut _ hxs => exact Nat.le_trans (ihxs.fields hxs) (Nat.le_max_right _ _)
    refine ⟨fun h => ?_, hfields⟩
    cases h with
    | slot h _ => exact Nat.succ_le_succ (hfields h)
  | @here tag f rest t ih =>
    refine .ofPart rfl fun h => ?_
    cases h with
    | bare => exact Nat.le_refl 0
    | here hnothing h =>
      have hcontent := ih.whole h
      rw [encode_here t hnothing]
      simp only [Json.record, List.map_cons, List.map_nil, Json.depth, Json.depthMembers]
      omega
  | there t ih =>
    refine .ofPart rfl fun h => ?_
    cases h with
    | there h => exact ih.whole h

theorem spellable_encode {f : Form} (t : Tree f) : t.encode.Spellable := by
  induction t with
  | token t => exact t.spellable_encode
  | element id => exact id.spellable_encode
  | node k body ih => exact ih
  | absent => trivial
  | present t ih => exact ih
  | nil => trivial
  | cons x xs ihx ihxs => exact ⟨ihx, ihxs.items⟩
  | nothing => trivial
  | done => trivial
  | slot x xs ihx ihxs => exact ⟨ihx, ihxs.members⟩
  | @here tag f rest t ih =>
    by_cases hnothing : f = .nothing
    · subst hnothing
      cases t
      trivial
    · rw [encode_here t hnothing]
      exact Json.spellable_record (by simpa using ih)
  | there t ih => exact ih

end Tree

theorem unitsOfJson_encode (units : List (Node .compilationUnit)) :
    unitsOfJson (Tree.ofList units).encode =
      if (Tree.ofList units).encode.depth ≤ nestingLimit then .ok units
      else .error .malformed := by
  have h := (Tree.ofList units).readsBack rfl nestingLimit
  rw [unitsOfJson, Tree.decode?, h]
  by_cases hdepth : (Tree.ofList units).encode.depth ≤ nestingLimit <;> simp [hdepth]

/-- The compilation units and the model that an index is made from are read back as what was
written, compact or indented; only units that nest too deep are refused. -/
theorem input_read_back (units : List (Node .compilationUnit)) (m : Model) :
    (readUnits (Tree.ofList units).encode.compact =
      if (Tree.ofList units).encode.depth ≤ nestingLimit then .ok units
      else .error .malformed) ∧
    (readUnits (Tree.ofList units).encode.indented =
      if (Tree.ofList units).encode.depth ≤ nestingLimit then .ok units
      else .error .malformed) ∧
    (Json.parse? m.encode.compact).bind Model.decode? = some m ∧
    (Json.parse? m.encode.indented).bind Model.decode? = some m := by
  have hunits := (Tree.ofList units).spellable_encode
  have hmodel := m.spellable_encode
  refine ⟨?_, ?_, ?_, ?_⟩
  · rw [readUnits, Json.parse?_compact hunits]
    exact unitsOfJson_encode units
  · rw [readUnits, Json.parse?_indented hunits]
    exact unitsOfJson_encode units
  · rw [Json.parse?_compact hmodel, Option.bind_some, m.decode?_encode]
  · rw [Json.parse?_indented hmodel, Option.bind_some, m.decode?_encode]

end UsageIndex
