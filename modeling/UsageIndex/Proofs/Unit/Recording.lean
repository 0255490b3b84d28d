import UsageIndex.Proofs.Interning
import UsageIndex.Proofs.Unit.Offers

/-!
What recording keeps. A relation is read back by looking its handle up in the table of elements;
read this way, a recording holds exactly the uses whose elements are indexed, in the order in
which they were added, whatever the tables held before.
-/

set_option autoImplicit false

namespace UsageIndex

/-- Whether uses of an element are recorded: it is not filtered and has a home. -/
def Model.isIndexed (m : Model) (e : ElementId) : Bool := !m.isFiltered e && (m.homeUris e).isOk

def Relation.use? (t : ElementTable) (r : Relation) : Option Candidate :=
  (t.get? r.target).map fun record => ⟨record.element, r.kind, r.location⟩

/-- The uses that a unit has recorded, in the order of recording. -/
def UnitRecorder.uses? (t : ElementTable) (u : UnitRecorder) : Option (List Candidate) :=
  u.relations.mapM (·.use? t)

def Recording.uses? (r : Recording) : Option (List Candidate) := r.unit.uses? r.tables.elements

def Model.indexedUses (m : Model) (cs : List Candidate) : List Candidate :=
  cs.filter fun c => m.isIndexed c.target

theorem Tables.Extends.get? {t t' : Tables} (h : t.Extends t') {handle : Handle}
    {r : ElementRecord} (hr : t.elements.get? handle = some r) :
    t'.elements.get? handle = some r :=
  getElem?_mono h.records hr

theorem Tables.Extends.uses? {t t' : Tables} (h : t.Extends t') {u : UnitRecorder}
    {us : List Candidate} (hu : u.uses? t.elements = some us) : u.uses? t'.elements = some us := by
  rw [UnitRecorder.uses?, mapM_eq_some_iff] at hu ⊢
  refine hu.imp ?_
  intro r c hc
  obtain ⟨record, hr, rfl⟩ := Option.map_eq_some_iff.1 hc
  exact Option.map_eq_some_iff.2 ⟨record, h.get? hr, rfl⟩

namespace Recording

structure Gains (m : Model) (r : Recording) (cs : List Candidate) (r' : Recording) : Prop where
  traced : r'.tables.Traced m
  grown : r.tables.Extends r'.tables
  key : r'.unit.key = r.unit.key
  uses : ∀ us, r.uses? = some us → r'.uses? = some (us ++ cs)
  elements : r'.tables.elements.elementIds =
    (r.tables.elements.elementIds ++ cs.map (·.target)).eraseDups

theorem Gains.refl {m : Model} {r : Recording} (h : r.tables.Traced m) : r.Gains m [] r where
  traced := h
  grown := Tables.Extends.refl _
  key := rfl
  uses := by simp
  elements := by simp [eraseDups_eq_self h.elements_nodup]

theorem Gains.trans {m : Model} {r r' r'' : Recording} {cs cs' : List Candidate}
    (h : r.Gains m cs r') (h' : r'.Gains m cs' r'') : r.Gains m (cs ++ cs') r'' where
  traced := h'.traced
  grown := h.grown.trans h'.grown
  key := h'.key.trans h.key
  uses := by
    intro us hus
    rw [h'.uses _ (h.uses us hus), List.append_assoc]
  elements := by
    rw [h'.elements, h.elements, eraseDups_eraseDups_append, List.map_append, List.append_assoc]

theorem gains_add_ok {m : Model} {r : Recording} (h : r.tables.Traced m) {c : Candidate}
    {pair : String × String} (hc : m.homeUris c.target = .ok pair) :
    r.Gains m [c] (r.add m c).2 := by
  obtain ⟨handle, t', hi, ht, hext, ⟨record, hrec, hel⟩, hids⟩ := h.runOn_enter_ok hc
  have hadd : (r.add m c).2 = {
      tables := t'
      unit := { r.unit with relations := r.unit.relations ++ [⟨handle, c.kind, c.location⟩] }
      log := r.log ++ [.recorded c.kind c.target c.location] } := by
    rw [add, hi]
  rw [hadd]
  refine ⟨ht, hext, rfl, ?_, hids⟩
  intro us hus
  have hold : r.unit.relations.mapM (·.use? t'.elements) = some us := hext.uses? hus
  have hnew : Relation.use? t'.elements ⟨handle, c.kind, c.location⟩ = some c := by
    simp only [Relation.use?, hrec, Option.map_some, hel]
  simp only [uses?, UnitRecorder.uses?, List.mapM_append, hold, List.mapM_cons, List.mapM_nil, hnew]
  rfl

theorem gains_add_error {m : Model} {r : Recording} (h : r.tables.Traced m) {c : Candidate}
    {fault : Fault} (hc : m.homeUris c.target = .error fault) :
    r.Gains m [] (r.add m c).2 := by
  have hadd : (r.add m c).2 =
      { r with log := r.log ++ [.dropped c.kind c.location.offset fault] } := by
    rw [add, h.runOn_enter_error hc]
  rw [hadd]
  have hself := Gains.refl h
  exact ⟨hself.traced, hself.grown, rfl, hself.uses, hself.elements⟩

theorem gains_step {m : Model} {r : Recording} (h : r.tables.Traced m) (c : Candidate) :
    r.Gains m (m.indexedUses [c]) (if m.isFiltered c.target then r else (r.add m c).2) := by
  by_cases hf : m.isFiltered c.target = true
  · simpa [Model.indexedUses, Model.isIndexed, hf] using Gains.refl h
  · cases hc : m.homeUris c.target with
    | ok pair =>
      simpa [Model.indexedUses, Model.isIndexed, hf, hc, Except.toBool] using gains_add_ok h hc
    | error fault =>
      simpa [Model.indexedUses, Model.isIndexed, hf, hc, Except.toBool] using gains_add_error h hc

theorem gains_addAll {m : Model} {r : Recording} (h : r.tables.Traced m) (cs : List Candidate) :
    r.Gains m (m.indexedUses cs) (r.addAll m cs) := by
  induction cs generalizing r with
  | nil => exact Gains.refl h
  | cons c cs ih =>
    have hstep := gains_step h c
    have hrest := hstep.trans (ih hstep.traced)
    have hsplit : m.indexedUses [c] ++ m.indexedUses cs = m.indexedUses (c :: cs) := by
      simp [Model.indexedUses, List.filter_cons]
      split <;> rfl
    rwa [hsplit] at hrest

theorem gains_contribute {m : Model} {r : Recording} (h : r.tables.Traced m) (o : Options)
    (unit : Node .compilationUnit) :
    r.Gains m (m.indexedUses (unit.candidates m o)) (r.contribute m o unit) := by
  rw [contribute_eq]
  exact gains_addAll h _

theorem uses?_contribute {m : Model} {t : Tables} (h : t.Traced m) (key : UnitKey) (o : Options)
    (unit : Node .compilationUnit) :
    (({ tables := t, unit := { key } } : Recording).contribute m o unit).uses? =
      some (m.indexedUses (unit.candidates m o)) := by
  have hgains := gains_contribute (r := { tables := t, unit := { key } }) h o unit
  exact hgains.uses [] rfl

theorem tables_add (r : Recording) (m : Model) (c : Candidate) :
    (r.add m c).2.tables = ((Tables.enter m c.target).runOn r.tables).2 := by
  unfold add
  split <;> simp [*]

theorem reached_addAll {m : Model} {r : Recording} (h : r.tables.Reached m)
    (cs : List Candidate) : (r.addAll m cs).tables.Reached m := by
  induction cs generalizing r with
  | nil => exact h
  | cons c cs ih =>
    refine ih (r := if m.isFiltered c.target then r else (r.add m c).2) ?_
    split
    · exact h
    · rw [tables_add]
      exact h.enter c.target

/-- A walk only ever interns, so it leads to tables that interning can lead to. -/
theorem reached_contribute {m : Model} {r : Recording} (h : r.tables.Reached m) (o : Options)
    (unit : Node .compilationUnit) : (r.contribute m o unit).tables.Reached m := by
  rw [contribute_eq]
  exact reached_addAll h _

end Recording

end UsageIndex
