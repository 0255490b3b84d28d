import UsageIndex.Json.Decode

/-!
Places in a source text: tokens with their byte offsets, and the locations they delimit.
-/

set_option autoImplicit false

namespace UsageIndex

/-- A piece of source text and the offset of its first byte. -/
structure Token where
  lexeme : String
  offset : UInt32
  deriving DecidableEq, Repr

namespace Token

def length (t : Token) : UInt32 := UInt32.ofNat t.lexeme.utf8ByteSize

def stop (t : Token) : UInt32 := t.offset + t.length

def fieldNames : List String := ["lexeme", "offset"]

def encode (t : Token) : Json :=
  .record [("lexeme", .string t.lexeme), ("offset", .ofWord t.offset)]

def decode? (j : Json) : Option Token := do
  let [lexeme, offset] ← j.fields? fieldNames | none
  return { lexeme := ← lexeme.required Json.text?, offset := ← offset.required Json.word? }

end Token

structure Location where
  offset : UInt32
  length : UInt32
  deriving DecidableEq, Repr

/-- The location from one offset to another, empty if they are out of order. -/
def Location.between (start stop : UInt32) : Location :=
  ⟨start, if start ≤ stop then stop - start else 0⟩

def Token.location (t : Token) : Location := ⟨t.offset, t.length⟩

end UsageIndex
