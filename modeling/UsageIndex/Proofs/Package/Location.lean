import UsageIndex.Proofs.Package.UnitColumn

/-!
Finding an element by the place of its name. The search goes through the URIs and then through
two columns; since no URI is there twice, and elements at the same offset are numbered in the
order in which they were recorded, it finds the one that was recorded first.
-/

set_option autoImplicit false

namespace UsageIndex

/-- The name of the element stands at this offset, and its unit has this source. -/
def Model.IsDeclaredAt (m : Model) (uri : String) (offset : UInt32) (e : ElementId) : Prop :=
  ∃ element unit unitElement, m.get? e = some element ∧ element.nameOffset = offset ∧
    m.enclosingUnit e = .ok unit ∧ m.get? unit = some unitElement ∧
    unitElement.sourceUri = some uri

def IsFirst {α : Type} (P : α → Prop) (l : List α) (a : α) : Prop :=
  ∃ before after, l = before ++ a :: after ∧ P a ∧ ∀ b ∈ before, ¬ P b

theorem isFirst_iff_find? {α : Type} {P : α → Prop} {q : α → Bool}
    (hq : ∀ a, q a = true ↔ P a) {l : List α} {a : α} : IsFirst P l a ↔ l.find? q = some a := by
  rw [List.find?_eq_some_iff_append]
  constructor
  · rintro ⟨before, after, hl, ha, hbefore⟩
    refine ⟨(hq a).2 ha, before, after, hl, ?_⟩
    intro b hb
    simpa using mt (hq b).1 (hbefore b hb)
  · rintro ⟨ha, before, after, hl, hbefore⟩
    refine ⟨before, after, hl, (hq a).1 ha, ?_⟩
    intro b hb
    refine mt (hq b).2 ?_
    simpa using hbefore b hb

namespace PackageIndex

def StandsAt (p : PackageIndex) (uri : String) (offset : UInt32) (i : Nat) : Prop :=
  p.elementUnitUri? i = some uri ∧ p.elementOffsets[i]? = some offset

variable {m : Model} {p : PackageIndex} {uri : String} {offset : UInt32} {i : Nat}

theorem uri?_eq_some_iff (h : p.uris.Nodup) {u : Nat} (hu : p.uris[u]? = some uri)
    (hlt : u < UInt32.size) {id : UInt32} : p.uri? id = some uri ↔ id = UInt32.ofNat u := by
  constructor
  · intro hid
    rw [← toNat_eq_of_getElem? h hu hid, UInt32.ofNat_toNat]
  · rintro rfl
    rw [uri?, toNat_ofNat_of_lt hlt, hu]

theorem standsAt_iff (h : p.uris.Nodup) {u : Nat} (hu : p.uris[u]? = some uri)
    (hlt : u < UInt32.size) :
    p.StandsAt uri offset i ↔
      (p.unitUris.zip p.elementOffsets)[i]? = some (UInt32.ofNat u, offset) := by
  rw [List.getElem?_zip_eq_some, StandsAt, elementUnitUri?]
  refine and_congr_left fun _ => ?_
  cases p.unitUris[i]? with
  | none => simp
  | some id => simp [uri?_eq_some_iff h hu hlt]

theorem StandsAt.mem_uris (h : p.StandsAt uri offset i) : uri ∈ p.uris := by
  obtain ⟨id, -, hid⟩ := Option.bind_eq_some_iff.1 h.1
  exact List.mem_of_getElem? hid

theorem StandsAt.lt_elementCount (h : p.StandsAt uri offset i) : i < p.elementCount :=
  (List.getElem?_eq_some_iff.1 h.2).1

/-- The search finds the least place where the unit and the offset stand. -/
theorem findElement?_least (h : p.uris.Nodup) (huris : p.uris.length ≤ UInt32.size)
    (hcount : p.elementCount ≤ UInt32.size) (uri : String) (offset : UInt32) :
    (p.findElement? uri offset = none ∧ ∀ i, ¬ p.StandsAt uri offset i) ∨
    ∃ n, p.findElement? uri offset = some n ∧ p.StandsAt uri offset n.toNat ∧
      ∀ i, p.StandsAt uri offset i → n.toNat ≤ i := by
  cases hu : p.uris.idxOf? uri with
  | none =>
    refine .inl ⟨by simp [findElement?, hu], ?_⟩
    intro i hi
    exact List.idxOf?_eq_none_iff.1 hu hi.mem_uris
  | some u =>
    have hat := getElem?_of_idxOf? hu
    have hlt := Nat.lt_of_lt_of_le (List.getElem?_eq_some_iff.1 hat).1 huris
    cases hi : (p.unitUris.zip p.elementOffsets).idxOf? (UInt32.ofNat u, offset) with
    | none =>
      refine .inl ⟨by simp [findElement?, hu, hi], ?_⟩
      intro i hstands
      rw [standsAt_iff h hat hlt] at hstands
      exact List.idxOf?_eq_none_iff.1 hi (List.mem_of_getElem? hstands)
    | some i =>
      have hstands : p.StandsAt uri offset i := (standsAt_iff h hat hlt).2 (getElem?_of_idxOf? hi)
      have hnumber : (UInt32.ofNat i).toNat = i :=
        toNat_ofNat_of_lt (Nat.lt_of_lt_of_le hstands.lt_elementCount hcount)
      refine .inr ⟨UInt32.ofNat i, by simp [findElement?, hu, hi], by rwa [hnumber], ?_⟩
      intro j hj
      obtain ⟨_, _, hleast⟩ := List.idxOf?_eq_some_iff.1 hi
      rw [standsAt_iff h hat hlt] at hj
      obtain ⟨hlen, hj⟩ := List.getElem?_eq_some_iff.1 hj
      rw [hnumber]
      exact Nat.le_of_not_lt fun hji => hleast j hji hj

theorem Describes.isDeclaredAt_iff {e : ElementId} (h : p.Describes m i e) :
    m.IsDeclaredAt uri offset e ↔ p.StandsAt uri offset i := by
  obtain ⟨element, unit, unitElement, unitUri, -, he, hoffset, hunit, hget, huri, hat, -⟩ := h
  rw [StandsAt, hat, hoffset, Option.some.injEq, Option.some.injEq]
  constructor
  · rintro ⟨element', unit', unitElement', he', hoffset', hunit', hget', huri'⟩
    obtain rfl := Option.some.inj (he.symm.trans he')
    obtain rfl := Except.ok.inj (hunit.symm.trans hunit')
    obtain rfl := Option.some.inj (hget.symm.trans hget')
    exact ⟨Option.some.inj (huri.symm.trans huri'), hoffset'⟩
  · rintro ⟨rfl, rfl⟩
    exact ⟨element, unit, unitElement, he, rfl, hunit, hget, huri⟩

variable {o : Options} {units : List (Node .compilationUnit)}

theorem Shows.standsAt_iff (h : p.Shows m o units) :
    p.StandsAt uri offset i ↔
      ∃ e, (numberingOf m o units)[i]? = some e ∧ m.IsDeclaredAt uri offset e := by
  constructor
  · intro hi
    obtain ⟨e, he⟩ := h.exists_element ⟨i, hi.lt_elementCount⟩
    exact ⟨e, he, (h.described i e he).isDeclaredAt_iff.2 hi⟩
  · rintro ⟨e, he, hdeclared⟩
    exact (h.described i e he).isDeclaredAt_iff.1 hdeclared

/-- What has the least number of all at one place was recorded first of them. -/
theorem isFirst_of_least {e : ElementId} (hi : (numberingOf m o units)[i]? = some e)
    (he : m.IsDeclaredAt uri offset e)
    (hleast : ∀ j e', (numberingOf m o units)[j]? = some e' → m.IsDeclaredAt uri offset e' →
      i ≤ j) :
    IsFirst (m.IsDeclaredAt uri offset)
      ((units.flatMap (Tree.recordedUses m o)).map (·.target)) e := by
  classical
  have hq : ∀ e, decide (m.IsDeclaredAt uri offset e) = true ↔ m.IsDeclaredAt uri offset e :=
    fun e => decide_eq_true_iff
  have hkey : ∀ e, decide (m.IsDeclaredAt uri offset e) = true → m.nameOffset e = offset := by
    intro e he
    obtain ⟨element, -, -, hget, rfl, -⟩ := (hq e).1 he
    rw [Model.nameOffset, hget]
    rfl
  -- neither numbering nor dropping repetitions changes what comes first at one offset
  have hfind : ((units.flatMap (Tree.recordedUses m o)).map (·.target)).find?
      (fun e => decide (m.IsDeclaredAt uri offset e)) =
        (numberingOf m o units).find? fun e => decide (m.IsDeclaredAt uri offset e) := by
    rw [numberingOf, find?_sortByKey_of_imp m.nameOffset hkey, mentioned, find?_eraseDups]
  rw [isFirst_iff_find? hq, hfind]
  obtain ⟨hlt, hat⟩ := List.getElem?_eq_some_iff.1 hi
  refine List.find?_eq_some_iff_getElem.2 ⟨(hq e).2 he, i, hlt, hat, ?_⟩
  intro j hj
  have hnot : ¬ m.IsDeclaredAt uri offset (numberingOf m o units)[j] := by
    intro hdeclared
    exact absurd (hleast j _ (List.getElem?_eq_getElem (hj.trans hlt)) hdeclared)
      (Nat.not_le_of_lt hj)
  simpa using hnot

theorem Shows.exists_standsAt_iff (h : p.Shows m o units) :
    (∃ i, p.StandsAt uri offset i) ↔
      ∃ e ∈ (units.flatMap (Tree.recordedUses m o)).map (·.target),
        m.IsDeclaredAt uri offset e := by
  constructor
  · rintro ⟨i, hi⟩
    obtain ⟨e, he, hdeclared⟩ := h.standsAt_iff.1 hi
    refine ⟨e, ?_, hdeclared⟩
    exact List.mem_eraseDups.1 (mem_numberingOf.1 (List.mem_of_getElem? he))
  · rintro ⟨e, he, hdeclared⟩
    have hmem : e ∈ numberingOf m o units := mem_numberingOf.2 (List.mem_eraseDups.2 he)
    obtain ⟨i, hi⟩ := List.mem_iff_getElem?.1 hmem
    exact ⟨i, h.standsAt_iff.2 ⟨e, hi, hdeclared⟩⟩

/-- Looking for a unit and an offset finds nothing just if no recorded element is declared there;
otherwise it finds the one that was recorded first, whose number is the least. -/
structure Locates (m : Model) (targets : List ElementId) (number : Nat → ElementId → Prop)
    (uri : String) (offset : UInt32) (p : PackageIndex) : Prop where
  none_iff : p.findElement? uri offset = none ↔ ∀ e ∈ targets, ¬ m.IsDeclaredAt uri offset e
  first : ∀ n, p.findElement? uri offset = some n →
    ∃ e, IsFirst (m.IsDeclaredAt uri offset) targets e ∧ ∀ e', number n.toNat e' ↔ e' = e
  least : ∀ n, p.findElement? uri offset = some n →
    ∀ i e, number i e → m.IsDeclaredAt uri offset e → n.toNat ≤ i

theorem Shows.locates (h : p.Shows m o units) (hnodup : p.uris.Nodup)
    (huris : p.uris.length ≤ UInt32.size) (uri : String) (offset : UInt32) :
    p.Locates m ((units.flatMap (Tree.recordedUses m o)).map (·.target))
      (fun n e => (numberingOf m o units)[n]? = some e) uri offset := by
  have hcount : p.elementCount ≤ UInt32.size := by
    rw [h.elementCount_eq]
    exact length_le_of_nodup (nodup_numberingOf m o units)
  obtain ⟨hnone, hnowhere⟩ | ⟨n, hn, hstands, hleast⟩ :=
    findElement?_least hnodup huris hcount uri offset
  · have hdeclared := mt h.exists_standsAt_iff.2 (not_exists.2 hnowhere)
    refine ⟨iff_of_true hnone fun e he hat => hdeclared ⟨e, he, hat⟩, ?_, ?_⟩
    · intro n hn
      cases hnone.symm.trans hn
    · intro n hn
      cases hnone.symm.trans hn
  · obtain ⟨e, he, hdeclared⟩ := h.standsAt_iff.1 hstands
    have hleast' : ∀ j e', (numberingOf m o units)[j]? = some e' →
        m.IsDeclaredAt uri offset e' → n.toNat ≤ j := by
      intro j e' hj hat
      exact hleast j (h.standsAt_iff.2 ⟨e', hj, hat⟩)
    refine ⟨iff_of_false ?_ ?_, ?_, ?_⟩
    · rw [hn]
      exact Option.some_ne_none n
    · intro hall
      obtain ⟨e', hmem, hat⟩ := h.exists_standsAt_iff.1 ⟨_, hstands⟩
      exact hall e' hmem hat
    · intro n' hn'
      obtain rfl := Option.some.inj (hn.symm.trans hn')
      refine ⟨e, isFirst_of_least he hdeclared hleast', fun e' => ?_⟩
      rw [he, Option.some.injEq, eq_comm]
    · intro n' hn'
      obtain rfl := Option.some.inj (hn.symm.trans hn')
      exact hleast'

end PackageIndex

/-- In a finished index, an element is found by the unit and the offset of its name just if one is
declared there, and of several it is the one that was recorded first. -/
theorem locates_of_indexUnits {m : Model} {o : Options} {units : List (Node .compilationUnit)}
    {p : PackageIndex} (h : (indexUnits m o units).1 = .ok p) (uri : String) (offset : UInt32) :
    ∃ targets, (builderOf m o units).targets? = some targets ∧
      p.Locates m targets (builderOf m o units).tables.elements.assignIds.Numbers uri offset := by
  have hrun : FullRun m o units := fullRun_of_roots (roots_of_indexUnits h)
  obtain rfl := Except.ok.inj (hrun.indexUnits_eq.symm.trans h)
  have hnumber : (builderOf m o units).tables.elements.assignIds.Numbers =
      fun n e => (numberingOf m o units)[n]? = some e := by
    funext n e
    exact propext hrun.numbers_iff
  refine ⟨_, hrun.targets?, ?_⟩
  rw [hnumber]
  exact hrun.shows.locates hrun.traced.uris.nodup hrun.traced.uris.length_le uri offset

/-- Both classes named `X` stand at this place; the one that the model has later was recorded
first. -/
theorem locates_of_indexUnits_sample :
    (indexUnits Sample.partsModel {} [Sample.partsUnitX, Sample.partsUnitZ]).1 =
        .ok Sample.partsIndex ∧
      Sample.partsIndex.findElement? "p" 6 = some 0 ∧
      Sample.partsModel.IsDeclaredAt "p" 6 ⟨3⟩ ∧
      IsFirst (Sample.partsModel.IsDeclaredAt "p" 6) [⟨7⟩, ⟨3⟩, ⟨4⟩, ⟨3⟩] ⟨7⟩ ∧
      Sample.partsIndex.Locates Sample.partsModel [⟨7⟩, ⟨3⟩, ⟨4⟩, ⟨3⟩]
        (builderOf Sample.partsModel {}
          [Sample.partsUnitX, Sample.partsUnitZ]).tables.elements.assignIds.Numbers "p" 6 := by
  obtain ⟨targets, htargets, hlocates⟩ := locates_of_indexUnits Sample.indexUnits_eq_parts "p" 6
  have hsame : (builderOf Sample.partsModel {} [Sample.partsUnitX, Sample.partsUnitZ]).targets? =
      some [⟨7⟩, ⟨3⟩, ⟨4⟩, ⟨3⟩] := by decide +kernel
  obtain rfl := Option.some.inj (htargets.symm.trans hsame)
  have hseven : Sample.partsModel.IsDeclaredAt "p" 6 ⟨7⟩ :=
    ⟨_, ⟨6⟩, _, rfl, rfl, rfl, rfl, rfl⟩
  exact ⟨Sample.indexUnits_eq_parts, by decide, ⟨_, ⟨2⟩, _, rfl, rfl, rfl, rfl, rfl⟩,
    ⟨[], _, rfl, hseven, by simp⟩, hlocates⟩

end UsageIndex
