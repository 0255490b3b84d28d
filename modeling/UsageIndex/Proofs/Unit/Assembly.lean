import UsageIndex.Proofs.Listing
import UsageIndex.Unit.Recorder

/-!
Assembling the index of one unit from any table of elements, be its records numbered or not. It
fails just if a relation's element has no number, and then for the first such relation in the
order of recording; else it sorts the relations by number and leaves those of one number in the
order of recording.
-/

set_option autoImplicit false

namespace UsageIndex

namespace ElementTable

def GivesNumber (t : ElementTable) (handle : Handle) (number : UInt32) : Prop :=
  ∃ r, t.records[handle.index.toNat]? = some r ∧ r.id = some number

/-- The handle is out of range, or the record behind it has no final number. -/
def LacksNumber (t : ElementTable) (handle : Handle) : Prop :=
  t.records.length ≤ handle.index.toNat ∨
    ∃ r, t.records[handle.index.toNat]? = some r ∧ r.id = none

variable {t : ElementTable} {handle : Handle}

theorem finalId?_eq_some_iff {number : UInt32} :
    t.finalId? handle = some number ↔ t.GivesNumber handle number :=
  Option.bind_eq_some_iff

theorem finalId?_eq_none_iff : t.finalId? handle = none ↔ t.LacksNumber handle := by
  unfold finalId? get? LacksNumber
  cases hr : t.records[handle.index.toNat]? with
  | none => simpa using List.getElem?_eq_none_iff.1 hr
  | some r =>
    have hlt := (List.getElem?_eq_some_iff.1 hr).1
    simp [Nat.not_le.2 hlt]

theorem not_lacksNumber_iff :
    ¬ t.LacksNumber handle ↔ ∃ number, t.GivesNumber handle number := by
  rw [← finalId?_eq_none_iff, ← ne_eq, Option.ne_none_iff_exists']
  exact exists_congr fun number => finalId?_eq_some_iff

end ElementTable

/-- The row says of the relation all that the relation does, with the final number for the
handle. -/
structure Relation.ShownBy (t : ElementTable) (r : Relation) (row : Usage) : Prop where
  element : t.GivesNumber r.target row.element
  kind : row.kind = r.kind
  location : row.location = r.location

namespace UnitRecorder

def unnumbered (handle : Handle) : Fault :=
  .internal ("element ElementInfoId(" ++ toString handle.index.toNat ++ ") has no final id")

variable {t : ElementTable} {u : UnitRecorder}

theorem usage_eq_ok_iff {r : Relation} {row : Usage} :
    usage t r = .ok row ↔ r.ShownBy t row := by
  unfold usage
  cases hid : t.finalId? r.target with
  | none =>
    simp only [reduceCtorEq, false_iff]
    intro h
    exact ElementTable.not_lacksNumber_iff.2 ⟨_, h.element⟩
      (ElementTable.finalId?_eq_none_iff.1 hid)
  | some number =>
    simp only [Except.ok.injEq]
    constructor
    · rintro rfl
      exact ⟨ElementTable.finalId?_eq_some_iff.1 hid, rfl, rfl⟩
    · rintro ⟨helement, hkind, hlocation⟩
      rw [ElementTable.finalId?_eq_some_iff.2 helement, Option.some.injEq] at hid
      rw [← hid, ← hkind, ← hlocation]

theorem usage_eq_error_iff {r : Relation} {fault : Fault} :
    usage t r = .error fault ↔ t.LacksNumber r.target ∧ fault = unnumbered r.target := by
  rw [← ElementTable.finalId?_eq_none_iff, usage]
  cases t.finalId? r.target with
  | none => simp [unnumbered, eq_comm]
  | some number => simp

theorem exists_usage_iff {r : Relation} :
    (∃ row, usage t r = .ok row) ↔ ¬ t.LacksNumber r.target := by
  cases hrow : usage t r with
  | ok row => simpa using ElementTable.not_lacksNumber_iff.2 ⟨_, (usage_eq_ok_iff.1 hrow).element⟩
  | error fault => simpa using (usage_eq_error_iff.1 hrow).1

/-- This is the first handle in the order of recording that has no number. -/
def FirstUnnumbered (t : ElementTable) (u : UnitRecorder) (handle : Handle) : Prop :=
  ∃ before r after, u.relations = before ++ r :: after ∧
    (∀ other ∈ before, ¬ t.LacksNumber other.target) ∧ t.LacksNumber r.target ∧ r.target = handle

/-- The entry shows the relations by number, those of one number in the order of recording. -/
structure Assembles (t : ElementTable) (u : UnitRecorder) (entry : UnitIndex) : Prop where
  libraryUri : entry.libraryUri = u.key.library.index
  unitUri : entry.unitUri = u.key.unit.index
  consistent : entry.isConsistent = true
  size : entry.size = u.relations.length
  ascending : entry.usages.Pairwise fun a b => a.element ≤ b.element
  rows : ∃ rows, List.Forall₂ (Relation.ShownBy t) u.relations rows ∧ entry.usages.Perm rows ∧
    ∀ number, entry.usages.filter (·.element = number) = rows.filter (·.element = number)

theorem assemble_of_rows {rows : List Usage} (h : u.relations.mapM (usage t) = .ok rows) :
    u.assemble t = .ok (.ofUsages u.key.library.index u.key.unit.index
      (sortByKey (·.element) rows)) := by
  rw [assemble, h]
  rfl

theorem assemble_of_error {fault : Fault} (h : u.relations.mapM (usage t) = .error fault) :
    u.assemble t = .error fault := by
  rw [assemble, h]
  rfl

theorem assembles_of_rows {rows : List Usage} (h : u.relations.mapM (usage t) = .ok rows) :
    u.Assembles t (.ofUsages u.key.library.index u.key.unit.index
      (sortByKey (·.element) rows)) := by
  have hrows : List.Forall₂ (Relation.ShownBy t) u.relations rows :=
    (forall₂_of_mapM_eq_ok h).imp fun _ _ => usage_eq_ok_iff.1
  refine ⟨rfl, rfl, UnitIndex.isConsistent_ofUsages _ _ _, ?_, ?_, rows, hrows, ?_, ?_⟩
  · rw [UnitIndex.size_ofUsages, (sortByKey_perm _ rows).length_eq, hrows.length_eq]
  · rw [UnitIndex.usages_ofUsages]
    exact pairwise_sortByKey _ rows
  · rw [UnitIndex.usages_ofUsages]
    exact sortByKey_perm _ rows
  · intro number
    rw [UnitIndex.usages_ofUsages]
    exact filter_sortByKey _ rows number

theorem assemble_eq_error_iff {fault : Fault} :
    u.assemble t = .error fault ↔
      ∃ handle, u.FirstUnnumbered t handle ∧ fault = unnumbered handle := by
  have hmap : u.assemble t = .error fault ↔ u.relations.mapM (usage t) = .error fault := by
    refine ⟨fun h => ?_, assemble_of_error⟩
    cases hrows : u.relations.mapM (usage t) with
    | ok rows => cases (assemble_of_rows hrows).symm.trans h
    | error other =>
      cases (assemble_of_error hrows).symm.trans h
      rfl
  rw [hmap, mapM_eq_error_iff]
  constructor
  · rintro ⟨before, r, after, hsplit, hbefore, hr⟩
    obtain ⟨hlacks, rfl⟩ := usage_eq_error_iff.1 hr
    exact ⟨r.target, ⟨before, r, after, hsplit,
      fun other hother => exists_usage_iff.1 (hbefore other hother), hlacks, rfl⟩, rfl⟩
  · rintro ⟨_, ⟨before, r, after, hsplit, hbefore, hlacks, rfl⟩, rfl⟩
    exact ⟨before, r, after, hsplit,
      fun other hother => exists_usage_iff.2 (hbefore other hother),
      usage_eq_error_iff.2 ⟨hlacks, rfl⟩⟩

theorem exists_assemble_iff :
    (∃ entry, u.assemble t = .ok entry) ↔ ∀ r ∈ u.relations, ¬ t.LacksNumber r.target := by
  constructor
  · rintro ⟨entry, hentry⟩ r hr
    cases hrows : u.relations.mapM (usage t) with
    | error fault => cases (assemble_of_error hrows).symm.trans hentry
    | ok rows =>
      obtain ⟨row, -, hrow⟩ := forall₂_mem (forall₂_of_mapM_eq_ok hrows) hr
      exact exists_usage_iff.1 ⟨row, hrow⟩
  · intro hall
    cases hentry : u.assemble t with
    | ok entry => exact ⟨entry, rfl⟩
    | error fault =>
      obtain ⟨_, ⟨before, r, after, hsplit, -, hlacks, -⟩, -⟩ := assemble_eq_error_iff.1 hentry
      exact absurd hlacks (hall r (by simp [hsplit]))

/-- Assembling a unit fails just if some relation's element has no number, and then names the first
such handle; otherwise the entry shows all relations, sorted by number and else as recorded. -/
theorem assemble_sorts_or_names_first (t : ElementTable) (u : UnitRecorder) :
    ((∃ fault, u.assemble t = .error fault) ↔ ∃ r ∈ u.relations, t.LacksNumber r.target) ∧
    (∀ fault, u.assemble t = .error fault ↔
      ∃ handle, u.FirstUnnumbered t handle ∧ fault = unnumbered handle) ∧
    ((∃ entry, u.assemble t = .ok entry) ↔ ∀ r ∈ u.relations, ¬ t.LacksNumber r.target) ∧
    ∀ entry, u.assemble t = .ok entry → u.Assembles t entry := by
  refine ⟨?_, fun fault => assemble_eq_error_iff, exists_assemble_iff, ?_⟩
  · have hok := exists_assemble_iff (t := t) (u := u)
    cases hentry : u.assemble t with
    | ok entry => simpa [hentry] using hok
    | error fault => simpa [hentry] using hok
  · intro entry hentry
    cases hrows : u.relations.mapM (usage t) with
    | error fault => cases (assemble_of_error hrows).symm.trans hentry
    | ok rows =>
      cases (assemble_of_rows hrows).symm.trans hentry
      exact assembles_of_rows hrows

end UnitRecorder

namespace Sample

def halfNumbered : ElementTable where
  records := [
    { element := ⟨2⟩, unit := 0, offset := 6, id := some 1 },
    { element := ⟨5⟩, unit := 0, offset := 4, id := some 0 },
    { element := ⟨7⟩, unit := 0, offset := 9 }]
  units := [⟨⟨0⟩, ⟨1⟩⟩]

def recorderOf (targets : List (Handle × UInt32)) : UnitRecorder where
  key := ⟨⟨0⟩, ⟨1⟩⟩
  relations := targets.map fun (handle, offset) => ⟨handle, .isReferencedBy, ⟨offset, 1⟩⟩

end Sample

/-- Two relations to one element stay in the order of recording; a handle without a number is named
although a handle out of range follows. -/
theorem UnitRecorder.assemble_sorts_or_names_first_sample :
    (∃ entry, (Sample.recorderOf [(⟨0⟩, 30), (⟨1⟩, 20), (⟨0⟩, 10)]).assemble Sample.halfNumbered =
        .ok entry ∧
      (Sample.recorderOf [(⟨0⟩, 30), (⟨1⟩, 20), (⟨0⟩, 10)]).Assembles Sample.halfNumbered entry ∧
      entry.usages = [⟨0, .isReferencedBy, ⟨20, 1⟩⟩, ⟨1, .isReferencedBy, ⟨30, 1⟩⟩,
        ⟨1, .isReferencedBy, ⟨10, 1⟩⟩]) ∧
    (Sample.recorderOf [(⟨0⟩, 30), (⟨2⟩, 20), (⟨9⟩, 10)]).assemble Sample.halfNumbered =
      .error (.internal "element ElementInfoId(2) has no final id") := by
  obtain ⟨-, -, -, hassembles⟩ := assemble_sorts_or_names_first Sample.halfNumbered
    (Sample.recorderOf [(⟨0⟩, 30), (⟨1⟩, 20), (⟨0⟩, 10)])
  obtain ⟨-, hfault, -⟩ := assemble_sorts_or_names_first Sample.halfNumbered
    (Sample.recorderOf [(⟨0⟩, 30), (⟨2⟩, 20), (⟨9⟩, 10)])
  have hrows : (Sample.recorderOf [(⟨0⟩, 30), (⟨1⟩, 20), (⟨0⟩, 10)]).relations.mapM
      (usage Sample.halfNumbered) = .ok [⟨1, .isReferencedBy, ⟨30, 1⟩⟩,
        ⟨0, .isReferencedBy, ⟨20, 1⟩⟩, ⟨1, .isReferencedBy, ⟨10, 1⟩⟩] := by decide +kernel
  have hentry : (Sample.recorderOf [(⟨0⟩, 30), (⟨1⟩, 20), (⟨0⟩, 10)]).assemble
      Sample.halfNumbered = .ok (.ofUsages 0 1 [⟨0, .isReferencedBy, ⟨20, 1⟩⟩,
        ⟨1, .isReferencedBy, ⟨30, 1⟩⟩, ⟨1, .isReferencedBy, ⟨10, 1⟩⟩]) := by
    rw [assemble_of_rows hrows, sortByKey_eq_insertionSort]
    decide +kernel
  refine ⟨⟨_, hentry, hassembles _ hentry, by decide⟩, (hfault _).2 ⟨⟨2⟩, ?_, by decide +kernel⟩⟩
  refine ⟨[⟨⟨0⟩, .isReferencedBy, ⟨30, 1⟩⟩], ⟨⟨2⟩, .isReferencedBy, ⟨20, 1⟩⟩,
    [⟨⟨9⟩, .isReferencedBy, ⟨10, 1⟩⟩], rfl, ?_, .inr ⟨_, rfl, rfl⟩, rfl⟩
  intro other hother
  obtain rfl := List.mem_singleton.1 hother
  exact ElementTable.not_lacksNumber_iff.2 ⟨1, _, rfl, rfl⟩

end UsageIndex
