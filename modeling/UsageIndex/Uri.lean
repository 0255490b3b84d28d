import UsageIndex.Json.Decode

/-!
Numbers for URIs, given out in the order in which the URIs are first met.
-/

set_option autoImplicit false

namespace UsageIndex

structure UriId where
  index : UInt32
  deriving DecidableEq, Repr

def UriId.label (id : UriId) : String := "uri_" ++ toString id.index.toNat

def UriId.encode (id : UriId) : Json := .ofWord id.index

def UriId.decode? (j : Json) : Option UriId := j.word?.map UriId.mk

/-- The URIs met so far; each one's number is its position. -/
structure UriTable where
  uris : List String := []
  deriving DecidableEq, Repr

namespace UriTable

def empty : UriTable := {}

def size (t : UriTable) : Nat := t.uris.length

def isEmpty (t : UriTable) : Bool := t.uris.isEmpty

def find? (t : UriTable) (uri : String) : Option UriId :=
  (t.uris.idxOf? uri).map fun i => ⟨UInt32.ofNat i⟩

def get? (t : UriTable) (id : UriId) : Option String := t.uris[id.index.toNat]?

def intern (t : UriTable) (uri : String) : UriId × UriTable :=
  match t.find? uri with
  | some id => (id, t)
  | none => (⟨UInt32.ofNat t.size⟩, ⟨t.uris ++ [uri]⟩)

theorem uris_intern (t : UriTable) (uri : String) :
    (t.intern uri).2.uris = if uri ∈ t.uris then t.uris else t.uris ++ [uri] := by
  unfold intern find?
  by_cases h : uri ∈ t.uris
  · obtain ⟨i, hi⟩ := Option.isSome_iff_exists.1 (List.isSome_idxOf?.2 h)
    simp [h, hi]
  · simp [h, List.idxOf?_eq_none_iff.2 h]

theorem nodup_uris_intern {t : UriTable} (h : t.uris.Nodup) (uri : String) :
    (t.intern uri).2.uris.Nodup := by
  rw [uris_intern]
  split
  · exact h
  · rename_i hm
    refine List.nodup_append.2 ⟨h, by simp, ?_⟩
    intro a ha b hb
    simp only [List.mem_singleton] at hb
    subst hb
    exact fun he => hm (he ▸ ha)

end UriTable

end UsageIndex
