/-
# Plain lists of bits

The simplest destination and the simplest source of bits: a list that grows at its end, and
a list that is used up from its front.  They say what writers and readers over words do
without saying how.
-/
import BitPack.Sink
import BitPack.Source

namespace BitPack

/-- A destination that keeps its bits as a list. -/
structure BitList where
  /-- The bits written, first one first. -/
  bits : Bits
deriving DecidableEq, Repr

namespace BitList

/-- A destination without a bit. -/
def empty : BitList := ⟨[]⟩

instance : BitSink BitList where
  writeBits value count := do
    let n ← checkCount maxRawBits count
    modify fun s => ⟨s.bits ++ Bits.ofInt n value⟩
  bitLength s := s.bits.length
  bytes s := Bytes.ofBits s.bits

end BitList

/-- A source that takes its bits from a list. -/
structure BitFeed where
  /-- All bits, first one first. -/
  bits : Bits
  /-- The number of bits taken. -/
  position : Nat
deriving DecidableEq, Repr

namespace BitFeed

/-- A source of which no bit has been taken. -/
def ofBits (s : Bits) : BitFeed := ⟨s, 0⟩

/-- The number of bits not taken yet. -/
def bitsRemaining (f : BitFeed) : Nat := f.bits.length - f.position

/-- Takes `n` bits, or those that are left. -/
def take (f : BitFeed) (n : Nat) : Taken × BitFeed :=
  let s : Bits := (f.bits.drop f.position).take n
  (⟨s.toNat, s.length⟩, { f with position := f.position + s.length })

instance : BitSource BitFeed where
  readBits count := do
    let n ← checkCount maxRawBits count
    modifyGet fun f => f.take n
  reachedEnd f := f.bits.length ≤ f.position

end BitFeed
end BitPack
