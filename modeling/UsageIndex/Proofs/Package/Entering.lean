import UsageIndex.Proofs.Element.Homes
import UsageIndex.Proofs.Package.Calls

/-!
What interning an element promises at any time. Whatever calls were made before, whether the
element can be interned, and what is wrong if it cannot, is a matter of the model; a failure
leaves the tables alone, a success keeps all that is there and appends little, and the handle it
gives is the element's for good.
-/

set_option autoImplicit false

namespace UsageIndex

theorem UriTable.length_intern_le (t : UriTable) (uri : String) :
    (t.intern uri).2.uris.length ≤ t.uris.length + 1 := by
  rw [uris_intern]
  split <;> simp

theorem UriTable.length_enterUnit_le {m : Model} {unit : ElementId} {t t' : UriTable}
    {key : UnitKey} (h : (enterUnit m unit).runOn t = (.ok key, t')) :
    t'.uris.length ≤ t.uris.length + 2 := by
  cases hu : m.unitUris unit with
  | error fault => cases (runOn_enterUnit_error hu t).symm.trans h
  | ok pair =>
    cases (runOn_enterUnit_ok hu t).symm.trans h
    have hlibrary := t.length_intern_le pair.1
    have hunit := (t.intern pair.1).2.length_intern_le pair.2
    omega

theorem ElementTable.length_internUnit_le (t : ElementTable) (key : UnitKey) :
    (t.internUnit key).2.units.length ≤ t.units.length + 1 := by
  rw [units_internUnit]
  split <;> simp

namespace Tables

/-- The tables after calls on them in any order, those that failed included: for the URIs of a
unit, for the handle of an element, or for a whole unit. -/
inductive AfterCalls (m : Model) : Tables → Prop where
  | none : AfterCalls m {}
  | uris {t : Tables} (h : AfterCalls m t) (unit : ElementId) :
      AfterCalls m { t with uris := ((UriTable.enterUnit m unit).runOn t.uris).2 }
  | element {t : Tables} (h : AfterCalls m t) (e : ElementId) :
      AfterCalls m ((enter m e).runOn t).2
  | unit {b : PackageBuilder} (hm : b.model = m) (h : AfterCalls m b.tables)
      (unit : Node .compilationUnit) :
      AfterCalls m ((PackageBuilder.enterUnit unit).runOn b).2.tables

/-- What a call that gave this handle has made of the tables. -/
structure Interned (m : Model) (e : ElementId) (handle : Handle) (t t' : Tables) : Prop where
  kept : t.Extends t'
  records : t'.elements.records.length ≤ t.elements.records.length + 1
  units : t'.elements.units.length ≤ t.elements.units.length + 1
  uris : t'.uris.uris.length ≤ t.uris.uris.length + 2
  record : ∃ r element unit pair, t'.elements.get? handle = some r ∧ r.element = e ∧
    m.get? e = some element ∧ r.offset = element.nameOffset ∧
    m.BelongsTo e unit ∧ m.unitUris unit = .ok pair ∧ t'.home? r = some pair
  again : (enter m e).runOn t' = (.ok handle, t')

theorem enter_bounds {m : Model} {e : ElementId} {handle : Handle} {t t' : Tables}
    (h : (enter m e).runOn t = (.ok handle, t')) :
    t'.elements.records.length ≤ t.elements.records.length + 1 ∧
      t'.elements.units.length ≤ t.elements.units.length + 1 ∧
      t'.uris.uris.length ≤ t.uris.uris.length + 2 := by
  obtain ⟨handle, -, hrun⟩ | ⟨-, fault, -, hrun⟩ |
    ⟨-, element, unit, pair, key, uris, -, -, -, hkey, hrun⟩ := t.enter_cases m e
  · cases hrun.symm.trans h
    omega
  · cases hrun.symm.trans h
  · cases hrun.symm.trans h
    have hrecords : (t.appended e element key uris).2.elements.records.length =
        t.elements.records.length + 1 := by
      simp [appended, ElementTable.insert, t.elements.records_internUnit key]
    exact ⟨Nat.le_of_eq hrecords, t.elements.length_internUnit_le key,
      UriTable.length_enterUnit_le hkey⟩

namespace Traced

variable {m : Model} {t : Tables}

theorem handle_unique (h : t.Traced m) {a b : Handle} {r r' : ElementRecord}
    (ha : t.elements.get? a = some r) (hb : t.elements.get? b = some r')
    (he : r.element = r'.element) : a = b := by
  have hid : t.elements.elementIds[a.index.toNat]? = t.elements.elementIds[b.index.toNat]? := by
    rw [ElementTable.get?] at ha hb
    simp only [ElementTable.elementIds, List.getElem?_map, ha, hb, Option.map_some, he]
  have hlt : a.index.toNat < t.elements.elementIds.length := by
    rw [ElementTable.elementIds, List.length_map]
    exact (List.getElem?_eq_some_iff.1 ha).1
  have hindex := (List.getElem?_inj hlt h.elements_nodup).1 hid
  cases a
  cases b
  simpa [UInt32.toNat_inj] using hindex

theorem enter_again (h : t.Traced m) {handle : Handle} {r : ElementRecord}
    (hr : t.elements.get? handle = some r) :
    (enter m r.element).runOn t = (.ok handle, t) := by
  have hmem : r.element ∈ t.elements.elementIds := List.mem_map_of_mem (List.mem_of_getElem? hr)
  obtain ⟨handle', hlookup, hrun⟩ | ⟨hnew, -⟩ | ⟨hnew, -⟩ := t.enter_cases m r.element
  · obtain ⟨r', hr', he⟩ := h.get?_lookup? hlookup
    rw [hrun, h.handle_unique hr' hr he]
  · exact absurd hmem hnew
  · exact absurd hmem hnew

theorem interned (h : t.Traced m) {e : ElementId} {handle : Handle} {t' : Tables}
    (hrun : (enter m e).runOn t = (.ok handle, t')) : Interned m e handle t t' := by
  cases hhome : m.homeUris e with
  | error fault => cases (h.runOn_enter_error hhome).symm.trans hrun
  | ok pair =>
    obtain ⟨_, _, hrun', ht', hext, ⟨r, hr, rfl⟩, -⟩ := h.runOn_enter_ok hhome
    cases hrun'.symm.trans hrun
    obtain ⟨hrecords, hunits, huris⟩ := enter_bounds hrun
    obtain ⟨-, element, pair', hget, hoffset, hhome', hat⟩ :=
      ht'.records r (List.mem_of_getElem? hr)
    obtain ⟨unit, hunit, hpair⟩ := Model.homeUris_eq_ok_iff.1 hhome'
    exact ⟨hext, hrecords, hunits, huris,
      ⟨r, element, unit, pair', hr, rfl, hget, hoffset, hunit, hpair, hat⟩, ht'.enter_again hr⟩

theorem afterUris (h : t.Traced m) (unit : ElementId) :
    ({ t with uris := ((UriTable.enterUnit m unit).runOn t.uris).2 } : Tables).Traced m := by
  cases hu : m.unitUris unit with
  | error fault => rwa [UriTable.runOn_enterUnit_error hu]
  | ok pair =>
    obtain ⟨key, uris, hrun, huris, hext, -⟩ := h.uris.enterUnit hu
    rw [hrun]
    exact (h.withUris huris hext).1

theorem afterElement (h : t.Traced m) (e : ElementId) : ((enter m e).runOn t).2.Traced m := by
  cases he : m.homeUris e with
  | error fault => rwa [h.runOn_enter_error he]
  | ok pair =>
    obtain ⟨handle, t', hrun, ht', -⟩ := h.runOn_enter_ok he
    rwa [hrun]

theorem afterUnit {b : PackageBuilder} (h : b.tables.Traced b.model)
    (unit : Node .compilationUnit) :
    ((PackageBuilder.enterUnit unit).runOn b).2.tables.Traced b.model := by
  cases hu : b.model.unitUris unit.unitElement with
  | error fault => rwa [PackageBuilder.runOn_enterUnit_error hu]
  | ok pair =>
    obtain ⟨b', hrun, hran⟩ := PackageBuilder.indexUnit_ok rfl rfl h hu
    rw [PackageBuilder.indexUnit_eq_ok_iff.1 hrun]
    exact hran.traced

end Traced

theorem AfterCalls.traced {m : Model} {t : Tables} (h : t.AfterCalls m) : t.Traced m := by
  induction h with
  | none => exact traced_empty m
  | uris _ unit ih => exact ih.afterUris unit
  | element _ e ih => exact ih.afterElement e
  | unit hm _ unit ih =>
    subst hm
    exact ih.afterUnit unit

/-- After any calls, interning an element fails for just the fault that the model has in store
for it and then changes nothing, or it gives a handle to a record that says of the element what
the model says; all that was there stays, and the same call again finds the same handle. -/
theorem enter_contract {m : Model} {t : Tables} (h : t.AfterCalls m) (e : ElementId) :
    (∀ fault, ((enter m e).runOn t).1 = .error fault ↔ m.LacksHome e fault) ∧
    (∀ fault, ((enter m e).runOn t).1 = .error fault → ((enter m e).runOn t).2 = t) ∧
    ∀ handle, ((enter m e).runOn t).1 = .ok handle →
      Interned m e handle t ((enter m e).runOn t).2 := by
  refine ⟨?_, ?_, fun handle hok => h.traced.interned (Prod.ext hok rfl)⟩
  · intro fault
    rw [← Model.homeUris_eq_error_iff]
    cases he : m.homeUris e with
    | error other => simp [h.traced.runOn_enter_error he]
    | ok pair =>
      obtain ⟨handle, t', hrun, -⟩ := h.traced.runOn_enter_ok he
      simp [hrun]
  · intro fault hfault
    cases he : m.homeUris e with
    | error other => rw [h.traced.runOn_enter_error he]
    | ok pair =>
      obtain ⟨handle, t', hrun, -⟩ := h.traced.runOn_enter_ok he
      rw [hrun] at hfault
      cases hfault

/-- The model has a unit inside a class that has no source: a call for the unit fails and leaves
the record of the class as it is, a call for another class appends. -/
theorem enter_contract_sample :
    ∃ t handle t', t.AfterCalls Sample.brokenModel ∧ t.elements.elementIds = [⟨2⟩] ∧
      Sample.brokenModel.LacksHome ⟨6⟩ (.missingSourceUri ⟨2⟩) ∧
      ((enter Sample.brokenModel ⟨6⟩).runOn t).2 = t ∧
      (enter Sample.brokenModel ⟨5⟩).runOn t = (.ok handle, t') ∧
      t'.elements.elementIds = [⟨2⟩, ⟨5⟩] ∧
      Interned Sample.brokenModel ⟨5⟩ handle t t' := by
  have hcalls : ((enter Sample.brokenModel ⟨2⟩).runOn {}).2.AfterCalls Sample.brokenModel :=
    .element .none ⟨2⟩
  obtain ⟨hfaults, hkept, -⟩ := enter_contract hcalls ⟨6⟩
  obtain ⟨-, -, hinterned⟩ := enter_contract hcalls ⟨5⟩
  have hfault : ((enter Sample.brokenModel ⟨6⟩).runOn
      ((enter Sample.brokenModel ⟨2⟩).runOn {}).2).1 = .error (.missingSourceUri ⟨2⟩) := by
    decide +kernel
  have hhandle : ((enter Sample.brokenModel ⟨5⟩).runOn
      ((enter Sample.brokenModel ⟨2⟩).runOn {}).2).1 = .ok ⟨1⟩ := by
    decide +kernel
  exact ⟨_, ⟨1⟩, _, hcalls, by decide +kernel, (hfaults _).1 hfault, hkept _ hfault,
    Prod.ext hhandle rfl, by decide +kernel, hinterned ⟨1⟩ hhandle⟩

end Tables

end UsageIndex
