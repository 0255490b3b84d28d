import UsageIndex.Proofs.Package.Consistency
import UsageIndex.Proofs.Package.Repetition
import UsageIndex.Proofs.Package.UnitColumn

/-!
The numbers that a run gives out. Whatever calls are made on a builder, the tables grow by one
entry at a time, each of them new; and since every URI, unit and element in them goes back to an
element of the model, there are never more of one kind than the model has elements. So the count
that an entry gets for its number is exact, and no other entry of its kind gets the same one.
-/

set_option autoImplicit false

namespace UsageIndex

inductive Column where
  | uris
  | units
  | elements
  deriving DecidableEq

inductive Item where
  | uri (text : String)
  | unit (key : UnitKey)
  | element (e : ElementId)
  deriving DecidableEq

def Item.column : Item → Column
  | .uri _ => .uris
  | .unit _ => .units
  | .element _ => .elements

/-- An item as it enters the tables, an element with the number of its unit and its offset. -/
inductive Entry where
  | uri (text : String)
  | unit (key : UnitKey)
  | element (e : ElementId) (unit offset : UInt32)

def Entry.item : Entry → Item
  | .uri text => .uri text
  | .unit key => .unit key
  | .element e _ _ => .element e

def Entry.column (entry : Entry) : Column := entry.item.column

namespace Tables

def items (t : Tables) : Column → List Item
  | .uris => t.uris.uris.map .uri
  | .units => t.elements.units.map .unit
  | .elements => t.elements.elementIds.map .element

def count (t : Tables) : Column → Nat
  | .uris => t.uris.size
  | .units => t.elements.units.length
  | .elements => t.elements.size

def put (t : Tables) : Entry → UInt32 × Tables
  | .uri uri => ((t.uris.intern uri).1.index, { t with uris := (t.uris.intern uri).2 })
  | .unit key =>
    ((t.elements.internUnit key).1, { t with elements := (t.elements.internUnit key).2 })
  | .element e unit offset =>
    ((t.elements.insert e unit offset).1.index,
      { t with elements := (t.elements.insert e unit offset).2 })

def number? (t : Tables) : Item → Option UInt32
  | .uri uri => (t.uris.find? uri).map UriId.index
  | .unit key => (t.elements.units.idxOf? key).map UInt32.ofNat
  | .element e => (t.elements.lookup? e).map Handle.index

def after (entries : List Entry) : Tables := entries.foldl (fun t entry => (t.put entry).2) {}

variable {t t' t'' : Tables} {entry : Entry} {entries entries' : List Entry}

theorem length_items (t : Tables) (column : Column) : (t.items column).length = t.count column := by
  cases column with
  | uris => exact List.length_map _
  | units => exact List.length_map _
  | elements => rw [items, List.length_map, ElementTable.elementIds, List.length_map]; rfl

theorem uri_new_iff {uri : String} :
    (Entry.uri uri).item ∉ t.items (Entry.uri uri).column ↔ uri ∉ t.uris.uris := by
  simp [Entry.column, Entry.item, Item.column, items]

theorem unit_new_iff {key : UnitKey} :
    (Entry.unit key).item ∉ t.items (Entry.unit key).column ↔ key ∉ t.elements.units := by
  simp [Entry.column, Entry.item, Item.column, items]

theorem element_new_iff {e : ElementId} {unit offset : UInt32} :
    (Entry.element e unit offset).item ∉ t.items (Entry.element e unit offset).column ↔
      e ∉ t.elements.elementIds := by
  simp [Entry.column, Entry.item, Item.column, items]

theorem items_put (h : entry.item ∉ t.items entry.column) (column : Column) :
    (t.put entry).2.items column =
      t.items column ++ if column = entry.column then [entry.item] else [] := by
  cases entry with
  | uri uri =>
    have huris := t.uris.uris_intern uri
    rw [if_neg (uri_new_iff.1 h)] at huris
    cases column <;> simp [put, items, Entry.column, Entry.item, Item.column, huris]
  | unit key =>
    have hunit := ElementTable.internUnit_new (unit_new_iff.1 h)
    cases column <;>
      simp [put, items, Entry.column, Entry.item, Item.column, ElementTable.elementIds, hunit]
  | element e unit offset =>
    cases column <;> simp [put, items, Entry.column, Entry.item, Item.column,
      ElementTable.elementIds, ElementTable.insert]

theorem number_put (h : entry.item ∉ t.items entry.column) :
    (t.put entry).1 = UInt32.ofNat (t.count entry.column) := by
  cases entry with
  | uri uri =>
    have hfind : t.uris.find? uri = none := by
      rw [UriTable.find?, List.idxOf?_eq_none_iff.2 (uri_new_iff.1 h), Option.map_none]
    rw [put, UriTable.intern, hfind]
    rfl
  | unit key =>
    rw [put, ElementTable.internUnit_new (unit_new_iff.1 h)]
    rfl
  | element e unit offset => rfl

theorem number?_eq (t : Tables) (item : Item) :
    t.number? item = ((t.items item.column).idxOf? item).map UInt32.ofNat := by
  cases item with
  | uri uri =>
    rw [Item.column, items, idxOf?_map fun _ _ => Item.uri.inj, number?, UriTable.find?,
      Option.map_map]
    rfl
  | unit key =>
    rw [Item.column, items, idxOf?_map fun _ _ => Item.unit.inj, number?]
  | element e =>
    rw [Item.column, items, idxOf?_map fun _ _ => Item.element.inj, number?, ElementTable.lookup?,
      ElementTable.elementIds, List.idxOf?, List.findIdx?_map, Option.map_map]
    rfl

/-- Each of the entries is new when it enters the tables. -/
inductive Puts : Tables → List Entry → Tables → Prop where
  | done (t : Tables) : Puts t [] t
  | next {t t' : Tables} {entry : Entry} {rest : List Entry}
      (hnew : entry.item ∉ t.items entry.column) (h : Puts (t.put entry).2 rest t') :
      Puts t (entry :: rest) t'

namespace Puts

theorem append (h : Puts t entries t') (h' : Puts t' entries' t'') :
    Puts t (entries ++ entries') t'' := by
  induction h with
  | done t => exact h'
  | next hnew _ ih => exact .next hnew (ih h')

theorem split (h : Puts t (entries ++ entries') t'') :
    ∃ t', Puts t entries t' ∧ Puts t' entries' t'' := by
  induction entries generalizing t with
  | nil => exact ⟨t, .done t, h⟩
  | cons entry rest ih =>
    cases h with
    | next hnew h =>
      obtain ⟨t', hrest, hrest'⟩ := ih h
      exact ⟨t', .next hnew hrest, hrest'⟩

theorem eq_foldl (h : Puts t entries t') :
    t' = entries.foldl (fun t entry => (t.put entry).2) t := by
  induction h with
  | done t => rfl
  | next _ _ ih => exact ih

theorem items_prefix (h : Puts t entries t') (column : Column) :
    t.items column <+: t'.items column := by
  induction h with
  | done t => exact List.prefix_refl _
  | next hnew _ ih =>
    rw [items_put hnew] at ih
    exact (List.prefix_append _ _).trans ih

theorem nodup_items (h : Puts t entries t') (ht : ∀ column, (t.items column).Nodup)
    (column : Column) : (t'.items column).Nodup := by
  induction h with
  | done t => exact ht column
  | @next t t' entry rest hnew _ ih =>
    refine ih fun column => ?_
    rw [items_put hnew]
    split
    · rename_i hcolumn
      subst hcolumn
      rw [← List.concat_eq_append]
      exact (ht _).concat hnew
    · rw [List.append_nil]
      exact ht column

theorem at_point (h : Puts {} entries t) (n : Nat) :
    Puts {} (entries.take n) (after (entries.take n)) ∧
      Puts (after (entries.take n)) (entries.drop n) t := by
  rw [← List.take_append_drop n entries] at h
  obtain ⟨t', hbefore, hbehind⟩ := h.split
  obtain rfl : t' = after (entries.take n) := hbefore.eq_foldl
  exact ⟨hbefore, hbehind⟩

theorem new_at (h : Puts {} entries t) {n : Nat} (hn : entries[n]? = some entry) :
    entry.item ∉ (after (entries.take n)).items entry.column := by
  obtain ⟨hlt, rfl⟩ := List.getElem?_eq_some_iff.1 hn
  have hbehind := (h.at_point n).2
  rw [List.drop_eq_getElem_cons hlt] at hbehind
  cases hbehind with
  | next hnew _ => exact hnew

theorem after_take_succ {n : Nat} (hn : entries[n]? = some entry) :
    after (entries.take (n + 1)) = ((after (entries.take n)).put entry).2 := by
  rw [after, List.take_add_one, hn, Option.toList_some, List.foldl_append]
  rfl

theorem getElem?_items (h : Puts {} entries t) {n n' : Nat} (hlt : n < n')
    (hn : entries[n]? = some entry) :
    ((after (entries.take n')).items entry.column)[(after (entries.take n)).count entry.column]? =
      some entry.item := by
  have hlater : Puts (after (entries.take (n + 1))) ((entries.take n').drop (n + 1))
      (after (entries.take n')) := by
    have hpoint := ((h.at_point n').1.at_point (n + 1)).2
    rwa [List.take_take, Nat.min_eq_left hlt] at hpoint
  refine getElem?_mono (hlater.items_prefix entry.column) ?_
  rw [after_take_succ hn, items_put (h.new_at hn), if_pos rfl, ← length_items]
  exact List.getElem?_concat_length

end Puts

namespace Traced

variable {m : Model}

theorem units_length_le_size (h : t.Traced m) : t.elements.units.length ≤ m.size := by
  refine h.units_length_le_of_lt ?_
  intro unit pair hunit
  obtain ⟨element, hget, -⟩ := Model.sourceUri_eq_ok_iff.1 (unitUris_eq_ok hunit).1
  exact Model.lt_size_of_get? hget

theorem records_length_le_size (h : t.Traced m) : t.elements.records.length ≤ m.size := by
  have hle : t.elements.elementIds.length ≤ m.size := by
    refine length_le_of_nodup_of_lt h.elements_nodup ?_
    intro e he
    obtain ⟨r, hr, rfl⟩ := List.mem_map.1 he
    obtain ⟨-, element, pair, hget, -⟩ := h.records r hr
    exact Model.lt_size_of_get? hget
  rwa [ElementTable.elementIds, List.length_map] at hle

/-- Each column goes back to as many elements of the model. -/
theorem count_le_size (h : t.Traced m) (column : Column) : t.count column ≤ m.size := by
  cases column with
  | uris => exact h.uris.length_le_size
  | units => exact h.units_length_le_size
  | elements => exact h.records_length_le_size

theorem count_le (h : t.Traced m) (column : Column) : t.count column ≤ UInt32.size := by
  cases column with
  | uris => exact h.uris.length_le
  | units => exact h.units_length_le
  | elements => exact h.records_length_le

end Traced

/-- The numbers that these entries get one after the other, from empty tables on. At each point
there are no more items of a kind than the model has elements; the number of an entry is the count
of its column, it is found again at all later points, and no other entry of the column gets it. -/
structure NumbersExactly (m : Model) (entries : List Entry) : Prop where
  bounded : ∀ n column, (after (entries.take n)).count column ≤ m.size
  number : ∀ n entry, entries[n]? = some entry →
    ((after (entries.take n)).put entry).1.toNat = (after (entries.take n)).count entry.column
  again : ∀ n n' entry, n < n' → entries[n]? = some entry →
    (after (entries.take n')).number? entry.item = some ((after (entries.take n)).put entry).1
  distinct : ∀ n n' entry entry', n < n' → entries[n]? = some entry →
    entries[n']? = some entry' → entry.column = entry'.column → entry.item ≠ entry'.item ∧
      ((after (entries.take n)).put entry).1 ≠ ((after (entries.take n')).put entry').1

namespace Puts

variable {m : Model}

theorem count_le (h : Puts t entries t') (column : Column) : t.count column ≤ t'.count column := by
  rw [← length_items, ← length_items]
  exact (h.items_prefix column).length_le

theorem count_lt (h : Puts {} entries t) {n n' : Nat} (hlt : n < n')
    (hn : entries[n]? = some entry) :
    (after (entries.take n)).count entry.column < (after (entries.take n')).count entry.column := by
  rw [← length_items (after (entries.take n'))]
  exact (List.getElem?_eq_some_iff.1 (h.getElem?_items hlt hn)).1

theorem toNat_number (h : Puts {} entries t) (ht : t.Traced m) {n : Nat}
    (hn : entries[n]? = some entry) :
    ((after (entries.take n)).put entry).1.toNat =
      (after (entries.take n)).count entry.column := by
  have hlt := h.count_lt (Nat.lt_add_one n) hn
  have hle := (h.at_point (n + 1)).2.count_le entry.column
  have hbound := ht.count_le entry.column
  rw [number_put (h.new_at hn)]
  exact toNat_ofNat_of_lt (by omega)

theorem number?_later (h : Puts {} entries t) {n n' : Nat} (hlt : n < n')
    (hn : entries[n]? = some entry) :
    (after (entries.take n')).number? entry.item =
      some ((after (entries.take n)).put entry).1 := by
  have hnodup := (h.at_point n').1.nodup_items (by intro column; cases column <;> exact .nil)
    entry.column
  have hindex := idxOf?_of_getElem? hnodup (h.getElem?_items hlt hn)
  rw [number?_eq, number_put (h.new_at hn)]
  exact congrArg (Option.map UInt32.ofNat) hindex

theorem numbersExactly (h : Puts {} entries t) (ht : t.Traced m) : NumbersExactly m entries where
  bounded n column := ((h.at_point n).2.count_le column).trans (ht.count_le_size column)
  number n entry hn := h.toNat_number ht hn
  again n n' entry hlt hn := h.number?_later hlt hn
  distinct := by
    intro n n' entry entry' hlt hn hn' hcolumn
    refine ⟨?_, ?_⟩
    · intro hsame
      refine h.new_at hn' ?_
      rw [← hsame, ← hcolumn]
      exact List.mem_of_getElem? (h.getElem?_items hlt hn)
    · intro hsame
      have hcount := h.count_lt hlt hn
      rw [← h.toNat_number ht hn, hsame, h.toNat_number ht hn', hcolumn] at hcount
      exact Nat.lt_irrefl _ hcount

end Puts

def GrowsTo (t t' : Tables) : Prop := ∃ entries, Puts t entries t'

theorem GrowsTo.refl (t : Tables) : t.GrowsTo t := ⟨[], .done t⟩

theorem GrowsTo.trans (h : t.GrowsTo t') (h' : t'.GrowsTo t'') : t.GrowsTo t'' := by
  obtain ⟨entries, hputs⟩ := h
  obtain ⟨entries', hputs'⟩ := h'
  exact ⟨entries ++ entries', hputs.append hputs'⟩

theorem growsTo_put (entry : Entry) (h : entry.item ∉ t.items entry.column) :
    t.GrowsTo (t.put entry).2 :=
  ⟨[entry], .next h (.done _)⟩

theorem growsTo_uri (t : Tables) (uri : String) :
    t.GrowsTo { t with uris := (t.uris.intern uri).2 } := by
  by_cases hknown : uri ∈ t.uris.uris
  · rw [UriTable.intern_of_mem hknown]
    exact .refl t
  · exact growsTo_put (.uri uri) (uri_new_iff.2 hknown)

theorem growsTo_enterUnit (t : Tables) (m : Model) (unit : ElementId) :
    t.GrowsTo { t with uris := ((UriTable.enterUnit m unit).runOn t.uris).2 } := by
  cases hu : m.unitUris unit with
  | error fault =>
    rw [UriTable.runOn_enterUnit_error hu]
    exact .refl t
  | ok pair =>
    rw [UriTable.runOn_enterUnit_ok hu]
    exact (t.growsTo_uri pair.1).trans (growsTo_uri _ pair.2)

theorem growsTo_internUnit (t : Tables) (key : UnitKey) :
    t.GrowsTo { t with elements := (t.elements.internUnit key).2 } := by
  by_cases hknown : key ∈ t.elements.units
  · rw [ElementTable.internUnit_of_mem hknown]
    exact .refl t
  · exact growsTo_put (.unit key) (unit_new_iff.2 hknown)

/-- Interning an element enters what is new of its URIs, its unit and itself, in this order. -/
theorem growsTo_enter (t : Tables) (m : Model) (e : ElementId) :
    t.GrowsTo ((enter m e).runOn t).2 := by
  obtain ⟨handle, -, hrun⟩ | ⟨-, fault, -, hrun⟩ |
    ⟨hnew, element, unit, pair, key, uris, -, -, -, hkey, hrun⟩ := t.enter_cases m e
  · rw [hrun]
    exact .refl t
  · rw [hrun]
    exact .refl t
  · rw [hrun]
    have huris := t.growsTo_enterUnit m unit
    rw [hkey] at huris
    have hunit := growsTo_internUnit { t with uris } key
    refine huris.trans (hunit.trans (growsTo_put (.element e _ _) ?_))
    rw [element_new_iff, ElementTable.elementIds, ElementTable.records_internUnit]
    exact hnew

end Tables

namespace Recording

theorem growsTo_addAll (r : Recording) (m : Model) (cs : List Candidate) :
    r.tables.GrowsTo (r.addAll m cs).tables := by
  induction cs generalizing r with
  | nil => exact .refl _
  | cons c cs ih =>
    refine .trans ?_ (ih (if m.isFiltered c.target then r else (r.add m c).2))
    split
    · exact .refl _
    · rw [tables_add]
      exact r.tables.growsTo_enter m c.target

theorem growsTo_contribute (r : Recording) (m : Model) (o : Options)
    (unit : Node .compilationUnit) : r.tables.GrowsTo (r.contribute m o unit).tables := by
  rw [contribute_eq]
  exact r.growsTo_addAll m _

end Recording

namespace PackageBuilder

theorem growsTo_enterUnit (b : PackageBuilder) (unit : Node .compilationUnit) :
    b.tables.GrowsTo ((enterUnit unit).runOn b).2.tables := by
  cases hu : b.model.unitUris unit.unitElement with
  | error fault =>
    rw [runOn_enterUnit_error hu]
    exact .refl _
  | ok pair =>
    have hkey := UriTable.runOn_enterUnit_ok hu b.tables.uris
    have huris := b.tables.growsTo_enterUnit b.model unit.unitElement
    rw [runOn_enterUnit_ok hkey]
    rw [hkey] at huris
    exact huris.trans (Recording.growsTo_contribute
      { tables := { b.tables with uris := _ }, unit := { key := _ }, log := b.log } b.model
      b.options unit)

theorem exists_puts_enterEach (b : PackageBuilder) (units : List (Node .compilationUnit)) :
    ∃ calls : List (List Entry), calls.length = units.length ∧
      ∀ k, b.tables.Puts (calls.take k).flatten (b.enterEach (units.take k)).2.tables := by
  induction units generalizing b with
  | nil => exact ⟨[], rfl, fun k => by simpa [enterEach] using .done b.tables⟩
  | cons unit rest ih =>
    obtain ⟨entries, hentries⟩ := b.growsTo_enterUnit unit
    obtain ⟨calls, hlength, hcalls⟩ := ih ((enterUnit unit).runOn b).2
    refine ⟨entries :: calls, by rw [List.length_cons, hlength, List.length_cons], ?_⟩
    intro k
    cases k with
    | zero => exact .done b.tables
    | succ k =>
      rw [List.take_succ_cons, List.take_succ_cons, List.flatten_cons, enterEach_cons rfl]
      exact hentries.append (hcalls k)

end PackageBuilder

/-- Each record gets its position in the order of the offsets for its number, and no two records
get the same one. -/
structure ElementTable.NumbersFinally (t : ElementTable) : Prop where
  number : ∀ (i : Nat) (r : ElementRecord), t.assignIds.records[i]? = some r →
    ∃ n, t.order[n]? = some i ∧ r.id.map UInt32.toNat = some n
  distinct : ∀ (i j : Nat) (r r' : ElementRecord), t.assignIds.records[i]? = some r →
    t.assignIds.records[j]? = some r' → r.element ≠ r'.element → r.id ≠ r'.id

namespace ElementTable

variable {t : ElementTable}

theorem exists_number (h : t.size ≤ UInt32.size) {i : Nat} {r : ElementRecord}
    (hr : t.assignIds.records[i]? = some r) :
    ∃ n, t.order[n]? = some i ∧ r.id.map UInt32.toNat = some n := by
  simp only [assignIds, List.getElem?_map, List.getElem?_zipIdx, Option.map_eq_some_iff] at hr
  obtain ⟨_, ⟨old, hold, rfl⟩, rfl⟩ := hr
  have hmem : i ∈ t.order := by
    rw [t.order_perm.mem_iff, List.mem_range]
    exact (List.getElem?_eq_some_iff.1 hold).1
  have hlength : t.order.length = t.size := by rw [t.order_perm.length_eq, List.length_range]
  have hlt := List.idxOf_lt_length_of_mem hmem
  refine ⟨t.order.idxOf i, List.getElem?_idxOf hmem, ?_⟩
  simp only [Nat.zero_add, Option.map_some]
  rw [toNat_ofNat_of_lt (by omega)]

theorem numbersFinally (h : t.size ≤ UInt32.size) : t.NumbersFinally where
  number i r hr := exists_number h hr
  distinct := by
    intro i j r r' hr hr' hne hid
    obtain ⟨n, hn, hrn⟩ := exists_number h hr
    obtain ⟨n', hn', hrn'⟩ := exists_number h hr'
    rw [hid, hrn'] at hrn
    obtain rfl := Option.some.inj hrn
    obtain rfl := Option.some.inj (hn.symm.trans hn')
    obtain rfl := Option.some.inj (hr.symm.trans hr')
    exact hne rfl

end ElementTable

/-- The unit `B` uses only `A`, which comes with the URI and the unit where it is at home. -/
example : (PackageBuilder.enterEach { model := Sample.model } [Sample.unitB]).2.tables =
    Tables.after [.uri "b", .uri "a", .unit ⟨⟨1⟩, ⟨1⟩⟩, .element ⟨2⟩ 0 6] := by
  decide +kernel

end UsageIndex
