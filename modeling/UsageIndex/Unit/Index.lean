import UsageIndex.Relation
import UsageIndex.Source

/-!
The index of one compilation unit: its relations as parallel columns, sorted by the number of
the element that is used.
-/

set_option autoImplicit false

namespace UsageIndex

structure Usage where
  element : UInt32
  kind : RelationKind
  location : Location
  deriving DecidableEq, Repr

structure UnitIndex where
  libraryUri : UInt32 := 0
  unitUri : UInt32 := 0
  elements : List UInt32 := []
  kinds : List RelationKind := []
  offsets : List UInt32 := []
  lengths : List UInt32 := []
  deriving DecidableEq, Repr

/-- The least `i` with `lo ≤ i ≤ hi` from which on `p` fails, if `p` never holds again after
it failed once. -/
def partitionPoint (p : Nat → Bool) (lo hi : Nat) : Nat :=
  if lo < hi then
    let mid := (lo + hi) / 2
    if p mid then partitionPoint p (mid + 1) hi else partitionPoint p lo mid
  else lo
termination_by hi - lo

namespace UnitIndex

def ofUsages (libraryUri unitUri : UInt32) (usages : List Usage) : UnitIndex where
  libraryUri := libraryUri
  unitUri := unitUri
  elements := usages.map (·.element)
  kinds := usages.map (·.kind)
  offsets := usages.map (·.location.offset)
  lengths := usages.map (·.location.length)

def size (u : UnitIndex) : Nat := u.elements.length

def isEmpty (u : UnitIndex) : Bool := u.elements.isEmpty

def isConsistent (u : UnitIndex) : Bool :=
  u.kinds.length == u.size && u.offsets.length == u.size && u.lengths.length == u.size

/-- The row at a position that all columns reach. -/
def usage? (u : UnitIndex) (i : Nat) : Option Usage := do
  return ⟨← u.elements[i]?, ← u.kinds[i]?, ← u.offsets[i]?, ← u.lengths[i]?⟩

def usages (u : UnitIndex) : List Usage := (List.range u.size).filterMap u.usage?

theorem size_ofUsages (l u : UInt32) (xs : List Usage) : (ofUsages l u xs).size = xs.length := by
  simp [size, ofUsages]

theorem isConsistent_ofUsages (l u : UInt32) (xs : List Usage) :
    (ofUsages l u xs).isConsistent = true := by
  simp [isConsistent, size, ofUsages]

theorem usage?_ofUsages (l u : UInt32) (xs : List Usage) (i : Nat) :
    (ofUsages l u xs).usage? i = xs[i]? := by
  unfold usage?
  cases h : xs[i]? with
  | none => simp [ofUsages, h]
  | some x => simp [ofUsages, h]

theorem filterMap_getElem?_range {α : Type} (xs : List α) :
    (List.range xs.length).filterMap (xs[·]?) = xs := by
  induction xs with
  | nil => rfl
  | cons x xs ih =>
    rw [List.length_cons, List.range_succ_eq_map, List.filterMap_cons, List.filterMap_map]
    exact congrArg (x :: ·) ih

theorem usages_ofUsages (l u : UInt32) (xs : List Usage) : (ofUsages l u xs).usages = xs := by
  rw [usages, size_ofUsages, show (ofUsages l u xs).usage? = (xs[·]?) from
    funext (usage?_ofUsages l u xs), filterMap_getElem?_range]

/-- The number of elements before the first one that fails the test, where the elements that
pass come first. -/
def boundary (u : UnitIndex) (test : UInt32 → Bool) : Nat :=
  partitionPoint (fun i => (u.elements[i]?).any test) 0 u.size

def usagesOf (u : UnitIndex) (element : UInt32) : List Usage :=
  let start := u.boundary (· < element)
  let stop := u.boundary (· ≤ element)
  (List.range' start (stop - start)).filterMap u.usage?

def fieldNames : List String :=
  ["libraryUriId", "unitUriId", "elements", "kinds", "locationOffsets", "locationLengths"]

def encode (u : UnitIndex) : Json :=
  .record [("libraryUriId", .ofWord u.libraryUri), ("unitUriId", .ofWord u.unitUri),
    ("elements", .ofList Json.ofWord u.elements), ("kinds", .ofList RelationKind.encode u.kinds),
    ("locationOffsets", .ofList Json.ofWord u.offsets),
    ("locationLengths", .ofList Json.ofWord u.lengths)]

def decode? (j : Json) : Option UnitIndex := do
  let [libraryUri, unitUri, elements, kinds, offsets, lengths] ← j.fields? fieldNames | none
  return {
    libraryUri := ← libraryUri.required Json.word?
    unitUri := ← unitUri.required Json.word?
    elements := ← elements.required (Json.list? Json.word?)
    kinds := ← kinds.required (Json.list? RelationKind.decode?)
    offsets := ← offsets.required (Json.list? Json.word?)
    lengths := ← lengths.required (Json.list? Json.word?) }

end UnitIndex

end UsageIndex
