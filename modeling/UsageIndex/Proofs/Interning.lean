import UsageIndex.Element.Table
import UsageIndex.Proofs.Listing

/-!
What the shared tables hold. Everything in them goes back to the model: each URI is the source
URI of an element, each unit key stands for the URIs of a unit, and each record describes an
element with its unit. So no table outgrows the numbers that there are for its items, and
whether an element can be interned is settled by the model alone.
-/

set_option autoImplicit false

namespace UsageIndex

theorem Model.lt_size_of_get? {m : Model} {e : ElementId} {element : Element}
    (h : m.get? e = some element) : e.index.toNat < m.size :=
  (List.getElem?_eq_some_iff.1 h).1

theorem Model.sourceUri_eq_ok_iff {m : Model} {id : ElementId} {uri : String} :
    m.sourceUri id = .ok uri ↔
      ∃ element, m.get? id = some element ∧ element.sourceUri = some uri := by
  unfold sourceUri
  cases m.get? id with
  | none => simp
  | some element => cases huri : element.sourceUri <;> simp [huri]

theorem unitUris_eq_ok {m : Model} {unit : ElementId} {libraryUri unitUri : String}
    (h : m.unitUris unit = .ok (libraryUri, unitUri)) :
    m.sourceUri unit = .ok unitUri ∧
      (((m.get? unit).bind Element.enclosing = none ∧ libraryUri = unitUri) ∨
        ∃ library, (m.get? unit).bind Element.enclosing = some library ∧
          m.sourceUri library = .ok libraryUri) := by
  unfold Model.unitUris at h
  cases hu : m.sourceUri unit with
  | error fault => simp [hu, bind, Except.bind] at h
  | ok uri =>
    cases hl : (m.get? unit).bind Element.enclosing with
    | none =>
      simp only [hu, hl, bind, Except.bind, pure, Except.pure, Except.ok.injEq,
        Prod.mk.injEq] at h
      obtain ⟨rfl, rfl⟩ := h
      exact ⟨rfl, .inl ⟨rfl, rfl⟩⟩
    | some library =>
      cases hlib : m.sourceUri library with
      | error fault => simp [hu, hl, hlib, bind, Except.bind] at h
      | ok other =>
        simp only [hu, hl, hlib, bind, Except.bind, pure, Except.pure, Except.ok.injEq,
          Prod.mk.injEq] at h
        obtain ⟨rfl, rfl⟩ := h
        exact ⟨rfl, .inr ⟨library, rfl, hlib⟩⟩

namespace UriTable

theorem prefix_intern (t : UriTable) (uri : String) : t.uris <+: (t.intern uri).2.uris := by
  rw [uris_intern]
  split
  · exact List.prefix_refl _
  · exact List.prefix_append _ _

theorem get?_intern {t : UriTable} {uri : String}
    (h : (t.intern uri).2.uris.length ≤ UInt32.size) :
    (t.intern uri).2.get? (t.intern uri).1 = some uri := by
  unfold intern find? at h ⊢
  cases hi : t.uris.idxOf? uri with
  | some i =>
    simp only [hi, Option.map_some] at h ⊢
    have hget := getElem?_of_idxOf? hi
    obtain ⟨hlt, -⟩ := List.getElem?_eq_some_iff.1 hget
    simp only [get?, toNat_ofNat_of_lt (Nat.lt_of_lt_of_le hlt h), hget]
  | none =>
    simp only [hi, Option.map_none, List.length_append, List.length_singleton] at h ⊢
    simp [get?, size, toNat_ofNat_of_lt (show t.uris.length < UInt32.size by omega)]

theorem get?_mono {t t' : UriTable} (h : t.uris <+: t'.uris) {id : UriId} {uri : String}
    (hid : t.get? id = some uri) : t'.get? id = some uri :=
  getElem?_mono h hid

theorem get?_inj {t : UriTable} (h : t.uris.Nodup) {a b : UriId} {uri : String}
    (ha : t.get? a = some uri) (hb : t.get? b = some uri) : a = b := by
  obtain ⟨hlt, -⟩ := List.getElem?_eq_some_iff.1 ha
  have hindex : a.index.toNat = b.index.toNat :=
    (List.getElem?_inj hlt h).1 (ha.trans hb.symm)
  cases a
  cases b
  simpa [UInt32.toNat_inj] using hindex

def pair? (t : UriTable) (key : UnitKey) : Option (String × String) := do
  return (← t.get? key.library, ← t.get? key.unit)

theorem pair?_eq_some_iff {t : UriTable} {key : UnitKey} {pair : String × String} :
    t.pair? key = some pair ↔
      t.get? key.library = some pair.1 ∧ t.get? key.unit = some pair.2 := by
  unfold pair?
  cases t.get? key.library with
  | none => simp
  | some l =>
    cases t.get? key.unit with
    | none => simp
    | some u => simp [Prod.ext_iff]

theorem pair?_mono {t t' : UriTable} (h : t.uris <+: t'.uris) {key : UnitKey}
    {pair : String × String} (hkey : t.pair? key = some pair) : t'.pair? key = some pair := by
  rw [pair?_eq_some_iff] at hkey ⊢
  exact ⟨get?_mono h hkey.1, get?_mono h hkey.2⟩

theorem pair?_inj {t : UriTable} (h : t.uris.Nodup) {a b : UnitKey} {pair : String × String}
    (ha : t.pair? a = some pair) (hb : t.pair? b = some pair) : a = b := by
  rw [pair?_eq_some_iff] at ha hb
  have hl := get?_inj h ha.1 hb.1
  have hu := get?_inj h ha.2 hb.2
  cases a
  cases b
  simp_all

theorem runOn_enterUnit_error {m : Model} {unit : ElementId} {fault : Fault}
    (h : m.unitUris unit = .error fault) (t : UriTable) :
    (enterUnit m unit).runOn t = (.error fault, t) := by
  simp only [enterUnit, h, InPlace.runOn_bind, InPlace.runOn_lift]

theorem runOn_enterUnit_ok {m : Model} {unit : ElementId} {libraryUri unitUri : String}
    (h : m.unitUris unit = .ok (libraryUri, unitUri)) (t : UriTable) :
    (enterUnit m unit).runOn t =
      (.ok ⟨(t.intern libraryUri).1, ((t.intern libraryUri).2.intern unitUri).1⟩,
        ((t.intern libraryUri).2.intern unitUri).2) := by
  simp only [enterUnit, h, InPlace.runOn_bind, InPlace.runOn_lift, InPlace.runOn_modifyGet,
    InPlace.runOn_pure]

structure Traced (m : Model) (t : UriTable) : Prop where
  nodup : t.uris.Nodup
  source : ∀ uri ∈ t.uris, ∃ id, m.sourceUri id = .ok uri

namespace Traced

variable {m : Model} {t : UriTable}

theorem length_le_of_lt (h : t.Traced m) {n : Nat}
    (hn : ∀ id uri, m.sourceUri id = .ok uri → id.index.toNat < n) : t.uris.length ≤ n := by
  refine length_le_of_sources_lt h.nodup (fun uri w => m.sourceUri ⟨w⟩ = .ok uri) ?_ ?_
  · intro uri huri
    obtain ⟨id, hid⟩ := h.source uri huri
    exact ⟨id.index, hid, hn id uri hid⟩
  · intro a _ b _ w ha hb
    exact Except.ok.inj (ha.symm.trans hb)

theorem length_le (h : t.Traced m) : t.uris.length ≤ UInt32.size :=
  h.length_le_of_lt fun id _ _ => id.index.toNat_lt_size

theorem intern (h : t.Traced m) {id : ElementId} {uri : String} (hid : m.sourceUri id = .ok uri) :
    (t.intern uri).2.Traced m where
  nodup := nodup_uris_intern h.nodup uri
  source := by
    intro other hother
    rw [uris_intern] at hother
    split at hother
    · exact h.source other hother
    · rcases List.mem_append.1 hother with hold | hnew
      · exact h.source other hold
      · obtain rfl := List.mem_singleton.1 hnew
        exact ⟨id, hid⟩

theorem enterUnit (h : t.Traced m) {unit : ElementId} {pair : String × String}
    (hunit : m.unitUris unit = .ok pair) :
    ∃ key t', (UriTable.enterUnit m unit).runOn t = (.ok key, t') ∧ t'.Traced m ∧
      t.uris <+: t'.uris ∧ t'.pair? key = some pair := by
  obtain ⟨libraryUri, unitUri⟩ := pair
  obtain ⟨hu, hlibrary⟩ := unitUris_eq_ok hunit
  obtain ⟨library, hl⟩ : ∃ library, m.sourceUri library = .ok libraryUri := by
    obtain ⟨-, rfl⟩ | ⟨library, -, hl⟩ := hlibrary
    · exact ⟨unit, hu⟩
    · exact ⟨library, hl⟩
  have h₁ := h.intern hl
  have h₂ := h₁.intern hu
  have hprefix := prefix_intern (t.intern libraryUri).2 unitUri
  refine ⟨_, _, runOn_enterUnit_ok hunit t, h₂,
    (prefix_intern t libraryUri).trans hprefix, pair?_eq_some_iff.2 ⟨?_, ?_⟩⟩
  · exact get?_mono hprefix (get?_intern h₁.length_le)
  · exact get?_intern h₂.length_le

end Traced

end UriTable

theorem length_le_of_nodup_of_lt {ids : List ElementId} (h : ids.Nodup) {n : Nat}
    (hn : ∀ e ∈ ids, e.index.toNat < n) : ids.length ≤ n := by
  refine length_le_of_sources_lt h (fun e w => e.index = w)
    (fun e he => ⟨e.index, rfl, hn e he⟩) ?_
  rintro ⟨a⟩ _ ⟨b⟩ _ w rfl hb
  exact congrArg ElementId.mk hb.symm

theorem length_le_of_nodup {ids : List ElementId} (h : ids.Nodup) : ids.length ≤ UInt32.size :=
  length_le_of_nodup_of_lt h fun e _ => e.index.toNat_lt_size

namespace ElementTable

def elementIds (t : ElementTable) : List ElementId := t.records.map (·.element)

theorem lookup?_eq_some {t : ElementTable} {e : ElementId} {h : Handle}
    (hl : t.lookup? e = some h) :
    ∃ i r, h = ⟨UInt32.ofNat i⟩ ∧ t.records[i]? = some r ∧ r.element = e := by
  obtain ⟨i, hi, rfl⟩ := Option.map_eq_some_iff.1 hl
  obtain ⟨hlt, he, -⟩ := List.findIdx?_eq_some_iff_getElem.1 hi
  exact ⟨i, _, rfl, List.getElem?_eq_getElem hlt, beq_iff_eq.1 he⟩

theorem lookup?_eq_none_iff {t : ElementTable} {e : ElementId} :
    t.lookup? e = none ↔ e ∉ t.elementIds := by
  simp only [lookup?, Option.map_eq_none_iff, List.findIdx?_eq_none_iff, elementIds, List.mem_map,
    not_exists, not_and]
  constructor
  · intro h r hr he
    simpa [he] using h r hr
  · intro h r hr
    simpa using h r hr

theorem records_internUnit (t : ElementTable) (key : UnitKey) :
    (t.internUnit key).2.records = t.records := by
  unfold internUnit
  split <;> rfl

theorem units_internUnit (t : ElementTable) (key : UnitKey) :
    (t.internUnit key).2.units = if key ∈ t.units then t.units else t.units ++ [key] := by
  unfold internUnit
  by_cases h : key ∈ t.units
  · obtain ⟨i, hi⟩ := Option.isSome_iff_exists.1 (List.isSome_idxOf?.2 h)
    simp [h, hi]
  · simp [h, List.idxOf?_eq_none_iff.2 h]

theorem getElem?_internUnit {t : ElementTable} {key : UnitKey}
    (h : (t.internUnit key).2.units.length ≤ UInt32.size) :
    (t.internUnit key).2.units[(t.internUnit key).1.toNat]? = some key := by
  unfold internUnit at h ⊢
  cases hi : t.units.idxOf? key with
  | some i =>
    simp only [hi] at h ⊢
    have hget := getElem?_of_idxOf? hi
    obtain ⟨hlt, -⟩ := List.getElem?_eq_some_iff.1 hget
    rw [toNat_ofNat_of_lt (Nat.lt_of_lt_of_le hlt h), hget]
  | none =>
    simp only [hi, List.length_append, List.length_singleton] at h ⊢
    rw [toNat_ofNat_of_lt (show t.units.length < UInt32.size by omega)]
    simp

end ElementTable

/-- The URIs of the library and of the unit that an element belongs to. -/
def Model.homeUris (m : Model) (e : ElementId) : Except Fault (String × String) := do
  let unit ← m.enclosingUnit e
  m.unitUris unit

namespace Tables

def home? (t : Tables) (r : ElementRecord) : Option (String × String) :=
  (t.elements.units[r.unit.toNat]?).bind t.uris.pair?

structure Extends (t t' : Tables) : Prop where
  uris : t.uris.uris <+: t'.uris.uris
  units : t.elements.units <+: t'.elements.units
  records : t.elements.records <+: t'.elements.records

theorem Extends.refl (t : Tables) : t.Extends t :=
  ⟨List.prefix_refl _, List.prefix_refl _, List.prefix_refl _⟩

theorem Extends.trans {t t' t'' : Tables} (h : t.Extends t') (h' : t'.Extends t'') :
    t.Extends t'' :=
  ⟨h.uris.trans h'.uris, h.units.trans h'.units, h.records.trans h'.records⟩

theorem Extends.home? {t t' : Tables} (h : t.Extends t') {r : ElementRecord}
    {pair : String × String} (hr : t.home? r = some pair) : t'.home? r = some pair := by
  obtain ⟨key, hkey, hpair⟩ := Option.bind_eq_some_iff.1 hr
  exact Option.bind_eq_some_iff.2
    ⟨key, getElem?_mono h.units hkey, UriTable.pair?_mono h.uris hpair⟩

/-- The record says of its element what the model says, and has no number yet. -/
def Describes (m : Model) (t : Tables) (r : ElementRecord) : Prop :=
  r.id = none ∧ ∃ e pair, m.get? r.element = some e ∧ r.offset = e.nameOffset ∧
    m.homeUris r.element = .ok pair ∧ t.home? r = some pair

theorem Extends.describes {m : Model} {t t' : Tables} (h : t.Extends t') {r : ElementRecord}
    (hr : t.Describes m r) : t'.Describes m r := by
  obtain ⟨hid, e, pair, he, ho, hp, hh⟩ := hr
  exact ⟨hid, e, pair, he, ho, hp, h.home? hh⟩

structure Traced (m : Model) (t : Tables) : Prop where
  uris : t.uris.Traced m
  units_nodup : t.elements.units.Nodup
  units_source : ∀ key ∈ t.elements.units,
    ∃ unit pair, m.unitUris unit = .ok pair ∧ t.uris.pair? key = some pair
  elements_nodup : t.elements.elementIds.Nodup
  records : ∀ r ∈ t.elements.records, t.Describes m r

theorem traced_empty (m : Model) : Traced m {} where
  uris := ⟨List.nodup_nil, by simp⟩
  units_nodup := List.nodup_nil
  units_source := by simp
  elements_nodup := List.nodup_nil
  records := by simp

namespace Traced

variable {m : Model} {t : Tables}

theorem units_length_le_of_lt (h : t.Traced m) {n : Nat}
    (hn : ∀ unit pair, m.unitUris unit = .ok pair → unit.index.toNat < n) :
    t.elements.units.length ≤ n := by
  refine length_le_of_sources_lt h.units_nodup (fun key w =>
    ∃ pair, m.unitUris ⟨w⟩ = .ok pair ∧ t.uris.pair? key = some pair) ?_ ?_
  · intro key hkey
    obtain ⟨unit, pair, hunit, hpair⟩ := h.units_source key hkey
    exact ⟨unit.index, ⟨pair, hunit, hpair⟩, hn unit pair hunit⟩
  · rintro a _ b _ w ⟨pair, hw, ha⟩ ⟨pair', hw', hb⟩
    obtain rfl := Except.ok.inj (hw.symm.trans hw')
    exact UriTable.pair?_inj h.uris.nodup ha hb

theorem units_length_le (h : t.Traced m) : t.elements.units.length ≤ UInt32.size :=
  h.units_length_le_of_lt fun unit _ _ => unit.index.toNat_lt_size

theorem records_length_le (h : t.Traced m) : t.elements.records.length ≤ UInt32.size := by
  have hle := length_le_of_nodup h.elements_nodup
  rwa [ElementTable.elementIds, List.length_map] at hle

theorem withUris (h : t.Traced m) {uris : UriTable} (hu : uris.Traced m)
    (hp : t.uris.uris <+: uris.uris) :
    ({ t with uris } : Tables).Traced m ∧ t.Extends { t with uris } := by
  have hext : t.Extends { t with uris } := ⟨hp, List.prefix_refl _, List.prefix_refl _⟩
  refine ⟨⟨hu, h.units_nodup, ?_, h.elements_nodup, fun r hr => hext.describes (h.records r hr)⟩,
    hext⟩
  intro key hkey
  obtain ⟨unit, pair, hunit, hpair⟩ := h.units_source key hkey
  exact ⟨unit, pair, hunit, UriTable.pair?_mono hp hpair⟩

theorem withUnit (h : t.Traced m) {key : UnitKey} {unit : ElementId} {pair : String × String}
    (hunit : m.unitUris unit = .ok pair) (hkey : t.uris.pair? key = some pair) :
    ({ t with elements := (t.elements.internUnit key).2 } : Tables).Traced m ∧
      t.Extends { t with elements := (t.elements.internUnit key).2 } := by
  have hrecords := ElementTable.records_internUnit t.elements key
  have hunits := ElementTable.units_internUnit t.elements key
  have hext : t.Extends { t with elements := (t.elements.internUnit key).2 } := by
    refine ⟨List.prefix_refl _, ?_, hrecords ▸ List.prefix_refl _⟩
    rw [hunits]
    split
    · exact List.prefix_refl _
    · exact List.prefix_append _ _
  refine ⟨⟨h.uris, ?_, ?_, ?_, ?_⟩, hext⟩
  · simp only [hunits]
    split
    · exact h.units_nodup
    · rename_i hnew
      rw [← List.concat_eq_append]
      exact h.units_nodup.concat hnew
  · intro other hother
    simp only [hunits] at hother
    split at hother
    · exact h.units_source other hother
    · rcases List.mem_append.1 hother with hold | hnew
      · exact h.units_source other hold
      · obtain rfl := List.mem_singleton.1 hnew
        exact ⟨unit, pair, hunit, hkey⟩
  · simpa only [ElementTable.elementIds, hrecords] using h.elements_nodup
  · intro r hr
    simp only [hrecords] at hr
    exact hext.describes (h.records r hr)

theorem withRecord (h : t.Traced m) {r : ElementRecord} (hr : t.Describes m r)
    (hnew : r.element ∉ t.elements.elementIds) :
    ({ t with elements := { t.elements with records := t.elements.records ++ [r] } } :
        Tables).Traced m ∧
      t.Extends
        { t with elements := { t.elements with records := t.elements.records ++ [r] } } := by
  have hext : t.Extends
      { t with elements := { t.elements with records := t.elements.records ++ [r] } } :=
    ⟨List.prefix_refl _, List.prefix_refl _, List.prefix_append _ _⟩
  refine ⟨⟨h.uris, h.units_nodup, h.units_source, ?_, ?_⟩, hext⟩
  · simp only [ElementTable.elementIds, List.map_append, List.map_singleton]
    rw [← List.concat_eq_append]
    exact h.elements_nodup.concat hnew
  · intro other hother
    rcases List.mem_append.1 hother with hold | hsame
    · exact hext.describes (h.records other hold)
    · obtain rfl := List.mem_singleton.1 hsame
      exact hext.describes hr

theorem homeUris_of_mem (h : t.Traced m) {e : ElementId} (he : e ∈ t.elements.elementIds) :
    ∃ pair, m.homeUris e = .ok pair := by
  obtain ⟨r, hr, rfl⟩ := List.mem_map.1 he
  obtain ⟨-, -, pair, -, -, hpair, -⟩ := h.records r hr
  exact ⟨pair, hpair⟩

theorem get?_lookup? (h : t.Traced m) {e : ElementId} {handle : Handle}
    (hl : t.elements.lookup? e = some handle) :
    ∃ r, t.elements.get? handle = some r ∧ r.element = e := by
  obtain ⟨i, r, rfl, hr, he⟩ := ElementTable.lookup?_eq_some hl
  obtain ⟨hlt, -⟩ := List.getElem?_eq_some_iff.1 hr
  refine ⟨r, ?_, he⟩
  rw [ElementTable.get?, toNat_ofNat_of_lt (Nat.lt_of_lt_of_le hlt h.records_length_le), hr]

end Traced

def appended (t : Tables) (e : ElementId) (element : Element) (key : UnitKey) (uris : UriTable) :
    Handle × Tables :=
  let new := (t.elements.internUnit key).2.insert e (t.elements.internUnit key).1
    element.nameOffset
  (new.1, ⟨uris, new.2⟩)

/-- What interning does: it finds the element, fails for want of a home and changes nothing, or
appends the element. -/
theorem enter_cases (t : Tables) (m : Model) (e : ElementId) :
    (∃ h, t.elements.lookup? e = some h ∧ (enter m e).runOn t = (.ok h, t)) ∨
    (e ∉ t.elements.elementIds ∧ ∃ fault, m.homeUris e = .error fault ∧
      (enter m e).runOn t = (.error fault, t)) ∨
    (e ∉ t.elements.elementIds ∧ ∃ element unit pair key uris, m.get? e = some element ∧
      m.homeUris e = .ok pair ∧ m.unitUris unit = .ok pair ∧
      (UriTable.enterUnit m unit).runOn t.uris = (.ok key, uris) ∧
      (enter m e).runOn t =
        (.ok (t.appended e element key uris).1, (t.appended e element key uris).2)) := by
  unfold enter Model.homeUris
  simp only [InPlace.runOn_bind, InPlace.runOn_get]
  cases hl : t.elements.lookup? e with
  | some h => exact .inl ⟨h, rfl, rfl⟩
  | none =>
    have hnew := ElementTable.lookup?_eq_none_iff.1 hl
    refine .inr ?_
    cases he : m.get? e with
    | none =>
      refine .inl ⟨hnew, .unknownElement e, ?_, rfl⟩
      simp [Model.enclosingUnit, he, bind, Except.bind]
    | some element =>
      simp only [InPlace.runOn_bind, InPlace.runOn_lift, InPlace.runOn_on,
        InPlace.runOn_modifyGet]
      cases hu : m.enclosingUnit e with
      | error fault => exact .inl ⟨hnew, fault, rfl, rfl⟩
      | ok unit =>
        cases hp : m.unitUris unit with
        | error fault =>
          refine .inl ⟨hnew, fault, hp, ?_⟩
          simp only [UriTable.runOn_enterUnit_error hp]
        | ok pair =>
          have hk := UriTable.runOn_enterUnit_ok hp t.uris
          refine .inr ⟨hnew, element, unit, pair, _, _, rfl, hp, hp, hk, ?_⟩
          simp only [hk]
          rfl

namespace Traced

variable {m : Model} {t : Tables}

theorem runOn_enter_error (h : t.Traced m) {e : ElementId} {fault : Fault}
    (he : m.homeUris e = .error fault) : (enter m e).runOn t = (.error fault, t) := by
  obtain ⟨handle, hl, -⟩ | ⟨-, fault', hf, hi⟩ | ⟨-, -, -, pair, -, -, -, hp, -⟩ :=
    t.enter_cases m e
  · obtain ⟨r, hr, rfl⟩ := h.get?_lookup? hl
    obtain ⟨pair, hp⟩ := h.homeUris_of_mem (List.mem_map_of_mem (List.mem_of_getElem? hr))
    rw [he] at hp
    cases hp
  · rw [he] at hf
    cases hf
    exact hi
  · rw [he] at hp
    cases hp

/-- An element with a home can be interned; the tables only grow, and by no other element. -/
theorem runOn_enter_ok (h : t.Traced m) {e : ElementId} {pair : String × String}
    (he : m.homeUris e = .ok pair) :
    ∃ handle t', (enter m e).runOn t = (.ok handle, t') ∧ t'.Traced m ∧ t.Extends t' ∧
      (∃ r, t'.elements.get? handle = some r ∧ r.element = e) ∧
      t'.elements.elementIds = (t.elements.elementIds ++ [e]).eraseDups := by
  obtain ⟨handle, hl, hi⟩ | ⟨-, fault, hf, -⟩ |
    ⟨hnew, element, unit, pair', key, uris, hel, hp, hu, hkey, hi⟩ := t.enter_cases m e
  · obtain ⟨r, hr, rfl⟩ := h.get?_lookup? hl
    have hmem : r.element ∈ t.elements.elementIds :=
      List.mem_map_of_mem (List.mem_of_getElem? hr)
    exact ⟨handle, t, hi, h, Extends.refl t, ⟨r, hr, rfl⟩,
      (eraseDups_append_of_mem h.elements_nodup hmem).symm⟩
  · rw [he] at hf
    cases hf
  · obtain rfl := Except.ok.inj (he.symm.trans hp)
    obtain ⟨_, _, hkey', hut, huris, hpair⟩ := h.uris.enterUnit hu
    cases hkey.symm.trans hkey'
    obtain ⟨h₁, hext₁⟩ := h.withUris hut huris
    obtain ⟨h₂, hext₂⟩ := h₁.withUnit hu hpair
    have hunit := ElementTable.getElem?_internUnit h₂.units_length_le
    have hrecords := ElementTable.records_internUnit t.elements key
    have hids : (t.elements.internUnit key).2.elementIds = t.elements.elementIds := by
      simp only [ElementTable.elementIds, hrecords]
    -- The record that is appended, in the tables that already know its unit.
    let r : ElementRecord :=
      { element := e, unit := (t.elements.internUnit key).1, offset := element.nameOffset }
    have hdesc : Describes m ⟨uris, (t.elements.internUnit key).2⟩ r :=
      ⟨rfl, element, pair, hel, rfl, he, Option.bind_eq_some_iff.2 ⟨key, hunit, hpair⟩⟩
    obtain ⟨h₃, hext₃⟩ := h₂.withRecord hdesc (hids ▸ hnew)
    refine ⟨_, _, hi, h₃, hext₁.trans (hext₂.trans hext₃), ⟨r, ?_, rfl⟩, ?_⟩
    · have hlt := h₃.records_length_le
      simp only [List.length_append, List.length_singleton] at hlt
      have hindex : (UInt32.ofNat (t.elements.internUnit key).2.size).toNat =
          (t.elements.internUnit key).2.records.length :=
        toNat_ofNat_of_lt (by rw [ElementTable.size]; omega)
      simp only [appended, ElementTable.insert, ElementTable.get?, hindex]
      exact List.getElem?_concat_length
    · rw [eraseDups_append_of_not_mem h.elements_nodup hnew, ← hids]
      exact List.map_append

end Traced

/-- The tables that interning can lead to. -/
inductive Reached (m : Model) : Tables → Prop where
  | empty : Reached m {}
  | unit {t : Tables} {unit : ElementId} {key : UnitKey} {uris : UriTable} (h : Reached m t)
      (hu : t.uris.internUnit m unit = .ok (key, uris)) : Reached m { t with uris }
  | element {t t' : Tables} {e : ElementId} {handle : Handle} (h : Reached m t)
      (he : t.intern m e = .ok (handle, t')) : Reached m t'

theorem Reached.enter {m : Model} {t : Tables} (h : t.Reached m) (e : ElementId) :
    ((enter m e).runOn t).2.Reached m := by
  obtain ⟨handle, -, hrun⟩ | ⟨-, fault, -, hrun⟩ |
    ⟨-, element, unit, pair, key, uris, -, -, -, -, hrun⟩ := t.enter_cases m e
  · rwa [hrun]
  · rwa [hrun]
  · rw [hrun]
    exact .element h (InPlace.outcome_eq_ok_iff.2 hrun)

theorem Reached.traced {m : Model} {t : Tables} (h : t.Reached m) : t.Traced m := by
  induction h with
  | empty => exact traced_empty m
  | @unit t unit key uris _ hu ih =>
    cases hp : m.unitUris unit with
    | error fault =>
      cases (UriTable.runOn_enterUnit_error hp t.uris).symm.trans (InPlace.outcome_eq_ok_iff.1 hu)
    | ok pair =>
      obtain ⟨_, _, hk, hut, huris, -⟩ := ih.uris.enterUnit hp
      cases hk.symm.trans (InPlace.outcome_eq_ok_iff.1 hu)
      exact (ih.withUris hut huris).1
  | @element t t' e handle _ he ih =>
    cases hp : m.homeUris e with
    | error fault =>
      cases (ih.runOn_enter_error hp).symm.trans (InPlace.outcome_eq_ok_iff.1 he)
    | ok pair =>
      obtain ⟨_, _, hi, ht, -⟩ := ih.runOn_enter_ok hp
      cases hi.symm.trans (InPlace.outcome_eq_ok_iff.1 he)
      exact ht

end Tables

end UsageIndex
