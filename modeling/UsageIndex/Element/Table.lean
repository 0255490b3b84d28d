import UsageIndex.Element.Model
import UsageIndex.InPlace
import UsageIndex.Uri

/-!
The table of the elements that an index mentions. Elements enter it when they are first
mentioned and are known by their position until all are there; then they are numbered by the
offsets of their names.
-/

set_option autoImplicit false

namespace UsageIndex

/-- What tells compilation units apart: the URIs of the library and of the unit. -/
structure UnitKey where
  library : UriId
  unit : UriId
  deriving DecidableEq, Repr

structure Handle where
  index : UInt32
  deriving DecidableEq, Repr

structure ElementRecord where
  element : ElementId
  /-- The position of the element's unit among the units of the table. -/
  unit : UInt32
  offset : UInt32
  /-- The final number, once it is given out. -/
  id : Option UInt32 := none
  deriving DecidableEq, Repr

structure ElementTable where
  records : List ElementRecord := []
  units : List UnitKey := []
  deriving DecidableEq, Repr

namespace ElementTable

def empty : ElementTable := {}

def size (t : ElementTable) : Nat := t.records.length

def isEmpty (t : ElementTable) : Bool := t.records.isEmpty

def get? (t : ElementTable) (h : Handle) : Option ElementRecord := t.records[h.index.toNat]?

def finalId? (t : ElementTable) (h : Handle) : Option UInt32 := (t.get? h).bind ElementRecord.id

def lookup? (t : ElementTable) (element : ElementId) : Option Handle :=
  (t.records.findIdx? (·.element == element)).map fun i => ⟨UInt32.ofNat i⟩

def internUnit (t : ElementTable) (key : UnitKey) : UInt32 × ElementTable :=
  match t.units.idxOf? key with
  | some i => (UInt32.ofNat i, t)
  | none => (UInt32.ofNat t.units.length, { t with units := t.units ++ [key] })

def insert (t : ElementTable) (element : ElementId) (unit offset : UInt32) :
    Handle × ElementTable :=
  (⟨UInt32.ofNat t.size⟩, { t with records := t.records ++ [{ element, unit, offset }] })

/-- The positions of the records by offset; equal offsets keep their order. -/
def order (t : ElementTable) : List Nat :=
  (t.records.zipIdx.mergeSort fun a b => a.1.offset ≤ b.1.offset).map Prod.snd

def assignIds (t : ElementTable) : ElementTable :=
  let order := t.order
  { t with
    records := t.records.zipIdx.map fun (r, i) =>
      { r with id := some (UInt32.ofNat (order.idxOf i)) } }

def ordered (t : ElementTable) : List ElementRecord :=
  t.order.filterMap (t.records[·]?)

theorem order_perm (t : ElementTable) : t.order.Perm (List.range t.size) := by
  refine ((List.mergeSort_perm _ _).map _).trans ?_
  simp [size, List.zipIdx_map_snd, List.range_eq_range']

end ElementTable

structure Tables where
  uris : UriTable := {}
  elements : ElementTable := {}
  deriving DecidableEq, Repr

/-- Interns the URIs of a unit, its library's first. Both are looked up before either enters the
table. -/
def UriTable.enterUnit (m : Model) (unit : ElementId) : InPlace UriTable UnitKey := do
  let (libraryUri, unitUri) ← m.unitUris unit
  let library ← modifyGet (·.intern libraryUri)
  let unit ← modifyGet (·.intern unitUri)
  return ⟨library, unit⟩

def UriTable.internUnit (t : UriTable) (m : Model) (unit : ElementId) :
    Except Fault (UnitKey × UriTable) :=
  (enterUnit m unit).outcome t

namespace Tables

def empty : Tables := {}

def enter (m : Model) (element : ElementId) : InPlace Tables Handle := do
  match (← get).elements.lookup? element with
  | some h => return h
  | none =>
    match m.get? element with
    | none => throw (.unknownElement element)
    | some e =>
      let unit ← m.enclosingUnit element
      let key ← (UriTable.enterUnit m unit).on (·.uris) fun t uris => { t with uris }
      let unitId ← modifyGet fun t =>
        let (id, elements) := t.elements.internUnit key
        (id, { t with elements })
      modifyGet fun t =>
        let (h, elements) := t.elements.insert element unitId e.nameOffset
        (h, { t with elements })

def intern (t : Tables) (m : Model) (element : ElementId) : Except Fault (Handle × Tables) :=
  (enter m element).outcome t

end Tables

end UsageIndex
