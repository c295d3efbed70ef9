/-
# Sizes

How many bits and bytes fields take, without writing them.
-/
import BitPack.Bytes
import BitPack.Params
import BitPack.Zigzag

namespace BitPack

/-- How many words of a size are needed for a number of bits. -/
def wordCount (bits wordSize : Int) : Except Error Int :=
  if wordSize = 0 then .error .divisionByZero
  else .ok (Int.fdiv (bits + (wordSize - 1)) wordSize)

/-- Bytes are words of eight bits. -/
theorem wordCount_eight (bits : Nat) : wordCount bits 8 = .ok (byteCount bits : Nat) := by
  have hfdiv : Int.fdiv ((bits : Int) + (8 - 1)) 8 = ((bits + 7) / 8 : Nat) := by
    rw [Int.fdiv_eq_ediv_of_nonneg _ (by decide)]
    omega
  rw [wordCount, if_neg (by decide), hfdiv, byteCount]

/-- The number of bits an unsigned field takes, signal bits included. -/
def unsignedSize (value chunkLength width : Int) : Except Error Nat := do
  let c ← Chunking.ofInts chunkLength width
  let n ← checkUnsigned value width
  return c.size n

namespace Params

/-- The number of bits a field takes. -/
def fieldSize (p : Params) (v : Int) : Except Error Nat := do
  if p.signed then
    let u ← Zigzag.encodeBlocks v p.zigzagExponent
    unsignedSize u p.chunkLength p.width.bits
  else
    unsignedSize v p.chunkLength p.width.bits

/-- The number of bits a sequence of fields takes. -/
def sizeInBits (p : Params) : List Int → Except Error Nat
  | [] => .ok 0
  | v :: vs => do
    let n ← p.fieldSize v
    let m ← p.sizeInBits vs
    return n + m

/-- The number of bytes a sequence of fields takes. -/
def sizeInBytes (p : Params) (values : List Int) : Except Error Nat := do
  let n ← p.sizeInBits values
  return byteCount n

end Params
end BitPack
