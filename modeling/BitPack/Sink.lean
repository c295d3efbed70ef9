/-
# Writing to any destination of bits

A destination of bits offers one raw operation, which appends the low bits of a number, and
tells how many bits it holds and what their bytes are.  All other writes are built on the
raw operation and so work for every destination.
-/
import BitPack.Bytes
import BitPack.BitText
import BitPack.Zigzag
import BitPack.Chunking

namespace BitPack

/-- The greatest number of bits of one raw operation. -/
def maxRawBits : Int := 64

/-- A destination of bits. -/
class BitSink (σ : Type) where
  /-- Appends the `count` low bits of a number. -/
  writeBits (value count : Int) : EStateM Error σ Unit
  /-- The number of bits written so far. -/
  bitLength : σ → Nat
  /-- The bytes of the bits written so far; the last one is completed with zeros. -/
  bytes : σ → Bytes

namespace BitSink

variable {σ : Type} [BitSink σ]

/-- The number of bytes of the bits written so far. -/
def byteLength (s : σ) : Nat := byteCount (bitLength s)

/-- Writes a stream text of at most 64 characters. -/
def writeText (text : String) : EStateM Error σ Unit := do
  let bits ← BitText.toNumber text
  writeBits (bits : Int) text.length

/-- Writes the first bits of a bitset, all of them when no number is given. -/
def writeBitset (value size : Int) (count : Option Int) : EStateM Error σ Unit := do
  let n ← checkCount size (count.getD size)
  writeBits value n

/-- Writes pieces one by one; the first one that is refused ends the writing. -/
def writePieces : List Piece → EStateM Error σ Unit
  | [] => pure ()
  | p :: ps => do
    writeBits (p.value : Int) p.count
    writePieces ps

/-- Writes an unsigned field. -/
def writeUnsigned (value chunkLength width : Int) : EStateM Error σ Unit := do
  let c ← Chunking.ofInts chunkLength width
  let n ← checkUnsigned value width
  writePieces (c.pieces n)

/-- Writes a signed field: the number is folded by block zigzag and written as unsigned. -/
def writeSigned (value chunkLength exponent width : Int) : EStateM Error σ Unit := do
  let _ ← Chunking.ofInts chunkLength width
  let k ← checkZigzagExponent exponent width
  checkSigned value width
  let u ← Zigzag.encodeBlocks value k
  writeUnsigned (u : Int) chunkLength width

end BitSink

/-- A request to write. -/
inductive WriteRequest where
  /-- The low bits of a number. -/
  | bits (value count : Int)
  /-- A stream text. -/
  | text (text : String)
  /-- The first bits of a bitset. -/
  | bitset (value size : Int) (count : Option Int)
  /-- An unsigned field. -/
  | unsigned (value chunkLength width : Int)
  /-- A signed field. -/
  | signed (value chunkLength exponent width : Int)
deriving DecidableEq, Repr

namespace WriteRequest

/-- An unsigned field of one of the four sizes. -/
def unsignedOf (w : Width) (value chunkLength : Int) : WriteRequest :=
  unsigned value chunkLength w.bits

/-- A signed field of one of the four sizes. -/
def signedOf (w : Width) (value chunkLength exponent : Int) : WriteRequest :=
  signed value chunkLength exponent w.bits

variable {σ : Type} [BitSink σ]

/-- Carries out a request to write. -/
def run : WriteRequest → EStateM Error σ Unit
  | bits value count => BitSink.writeBits value count
  | text s => BitSink.writeText s
  | bitset value size count => BitSink.writeBitset value size count
  | unsigned value chunkLength width => BitSink.writeUnsigned value chunkLength width
  | signed value chunkLength exponent width =>
    BitSink.writeSigned value chunkLength exponent width

/-- Carries out a request; what it leaves is kept when it fails. -/
def attempt (q : WriteRequest) (s : σ) : Except Error Unit × σ :=
  match q.run.run s with
  | .ok a s' => (.ok a, s')
  | .error e s' => (.error e, s')

/-- Carries out requests one after the other; one that fails is answered with its error and
the next ones go on. -/
def attempts : List WriteRequest → σ → List (Except Error Unit) × σ
  | [], s => ([], s)
  | q :: qs, s =>
    let (answer, s') := q.attempt s
    let (answers, s'') := attempts qs s'
    (answer :: answers, s'')

end WriteRequest
end BitPack
