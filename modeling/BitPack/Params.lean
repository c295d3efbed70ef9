/-
# Parameters of a sequence of fields

A stream does not describe itself: it can only be read with the parameters it was written
with.  `Params` holds them; its proof fields say that a chunk has a payload bit and that the
zigzag exponent is below the width.
-/
import BitPack.Chunking
import BitPack.Json

namespace BitPack

/-- The parameters shared by all fields of a sequence. -/
structure Params where
  /-- The width of the numbers. -/
  width : Width
  /-- The payload bits of a chunk. -/
  chunkLength : Nat
  /-- Whether numbers are signed, and so folded by zigzag. -/
  signed : Bool
  /-- The exponent of block zigzag. -/
  zigzagExponent : Nat
  /-- A chunk has at least one payload bit. -/
  chunkLength_pos : 0 < chunkLength
  /-- The exponent is below the width. -/
  zigzagExponent_lt : zigzagExponent < width.bits
deriving DecidableEq, Repr

namespace Params

/-- The chunking of the fields. -/
def chunking (p : Params) : Chunking := ⟨p.width, p.chunkLength, p.chunkLength_pos⟩

/-- The least number of a field. -/
def minValue (p : Params) : Int := if p.signed then (signedRange p.width.bits).1 else 0

/-- The greatest number of a field. -/
def maxValue (p : Params) : Int :=
  if p.signed then (signedRange p.width.bits).2 else 2 ^ p.width.bits - 1

/-- The greatest number of bits of a field. -/
def maxBits (p : Params) : Nat := p.chunking.maxSize

/-- A number that a field can hold. -/
def InRange (p : Params) (v : Int) : Prop := p.minValue ≤ v ∧ v ≤ p.maxValue

instance (p : Params) (v : Int) : Decidable (p.InRange v) :=
  inferInstanceAs (Decidable (_ ∧ _))

/-- The names of the parameters, in order. -/
def fieldNames : List String := ["width", "chunk_length", "signed", "zigzag_exponent"]

/-- The parameters as named JSON values, in order. -/
def members (p : Params) : List (String × Json) :=
  [("width", .int p.width.bits), ("chunk_length", .int p.chunkLength),
    ("signed", .bool p.signed), ("zigzag_exponent", .int p.zigzagExponent)]

/-- The parameters as a JSON object. -/
def toJson (p : Params) : Json := .object p.members

end Params
end BitPack
