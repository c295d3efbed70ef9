/-
# Reading from any source of bits

A source of bits offers one raw operation, which takes bits from the front, and tells
whether it is used up.  All other reads are built on the raw operation and so work for every
source, whatever it answers: the chunk loop ends because each round asks for payload bits
that are still missing, not because of what it is given.
-/
import BitPack.BitText
import BitPack.Zigzag
import BitPack.Chunking
import BitPack.Event

namespace BitPack

/-- What a source answers to a raw request: a number and how many bits it took. -/
structure Taken where
  /-- The number formed by the bits. -/
  value : Int
  /-- The number of bits taken; it is smaller than requested only at the end. -/
  count : Int
deriving DecidableEq, Repr

/-- A source of bits. -/
class BitSource (σ : Type) where
  /-- Takes a number of bits from the front. -/
  readBits (count : Int) : EStateM Error σ Taken
  /-- Whether every bit has been taken. -/
  reachedEnd : σ → Bool
  /-- Whether every bit has been taken or only zero bits are left.  A source may say no
  although only zero bits are left. -/
  onlyZeroesLeft : σ → Bool := reachedEnd

/-- The result of reading a field. -/
inductive FieldRead where
  /-- The number that was read. -/
  | value (v : Int)
  /-- The stream ended inside the field after some of its payload bits. -/
  | truncated (chunkLength width : Nat) (payloadRead : Int)
deriving DecidableEq, Repr

namespace FieldRead

/-- The events of reading a field: a stream that ends inside a field is reported. -/
def events : FieldRead → List Event
  | value _ => []
  | truncated chunkLength width payloadRead =>
    [.readTruncated chunkLength width payloadRead]

end FieldRead

namespace BitSource

variable {σ : Type} [BitSource σ]

/-- Takes bits and shows them as a stream text. -/
def readText (count : Int) : EStateM Error σ String := do
  let t ← readBits count
  BitText.ofNumber t.value t.count

/-- Takes the first bits of a bitset, all of them when no number is given. -/
def readBitset (size : Int) (count : Option Int) : EStateM Error σ Taken := do
  let n ← checkCount size (count.getD size)
  readBits n

/-- Reads the rest of a field of which `payload` bits, forming `value`, have been read. -/
def readChunks (c : Chunking) (payload : Nat) (value : Int) : EStateM Error σ FieldRead := do
  let n := min c.length (c.width.bits - payload)
  let t ← readBits n
  if t.count ≠ n then
    return .truncated c.length c.width.bits (payload + t.count)
  else
    let joined := Bits.orInt value (t.value * 2 ^ payload)
    if _h : c.width.bits ≤ payload + n then
      return .value joined
    else
      let signal ← readBits 1
      if signal.count ≠ 1 then
        return .truncated c.length c.width.bits (payload + n : Nat)
      else if signal.value = 0 then
        return .value joined
      else
        readChunks c (payload + n) joined
termination_by c.width.bits - payload
decreasing_by
  have := c.length_pos
  omega

/-- Reads an unsigned field. -/
def readUnsigned (chunkLength width : Int) : EStateM Error σ FieldRead := do
  let c ← Chunking.ofInts chunkLength width
  readChunks c 0 0

/-- Reads a signed field, the code of which is unfolded by block zigzag. -/
def readSigned (chunkLength exponent width : Int) : EStateM Error σ FieldRead := do
  let c ← Chunking.ofInts chunkLength width
  let k ← checkZigzagExponent exponent width
  match ← readChunks c 0 0 with
  | .value u => return .value (← Zigzag.decodeBlocks u k)
  | .truncated chunkLength width payloadRead =>
    return .truncated chunkLength width payloadRead

end BitSource

/-- A request to read. -/
inductive ReadRequest where
  /-- A number of bits. -/
  | bits (count : Int)
  /-- A stream text of a number of bits. -/
  | text (count : Int)
  /-- The first bits of a bitset. -/
  | bitset (size : Int) (count : Option Int)
  /-- An unsigned field. -/
  | unsigned (chunkLength width : Int)
  /-- A signed field. -/
  | signed (chunkLength exponent width : Int)
deriving DecidableEq, Repr

/-- The answer to a request to read. -/
inductive ReadAnswer where
  /-- Bits as a number. -/
  | bits (t : Taken)
  /-- Bits as a stream text. -/
  | text (s : String)
  /-- A field. -/
  | field (r : FieldRead)
deriving DecidableEq, Repr

/-- The events of an answer. -/
def ReadAnswer.events : ReadAnswer → List Event
  | field r => r.events
  | _ => []

namespace ReadRequest

/-- An unsigned field of one of the four sizes. -/
def unsignedOf (w : Width) (chunkLength : Int) : ReadRequest := unsigned chunkLength w.bits

/-- A signed field of one of the four sizes. -/
def signedOf (w : Width) (chunkLength exponent : Int) : ReadRequest :=
  signed chunkLength exponent w.bits

variable {σ : Type} [BitSource σ]

/-- Carries out a request to read. -/
def run : ReadRequest → EStateM Error σ ReadAnswer
  | bits count => .bits <$> BitSource.readBits count
  | text count => .text <$> BitSource.readText count
  | bitset size count => .bits <$> BitSource.readBitset size count
  | unsigned chunkLength width => .field <$> BitSource.readUnsigned chunkLength width
  | signed chunkLength exponent width =>
    .field <$> BitSource.readSigned chunkLength exponent width

/-- Carries out a request; what it leaves is kept when it fails. -/
def attempt (q : ReadRequest) (s : σ) : Except Error ReadAnswer × σ :=
  match q.run.run s with
  | .ok a s' => (.ok a, s')
  | .error e s' => (.error e, s')

/-- Carries out requests one after the other; one that fails is answered with its error and
the next ones go on. -/
def attempts : List ReadRequest → σ → List (Except Error ReadAnswer) × σ
  | [], s => ([], s)
  | q :: qs, s =>
    let (answer, s') := q.attempt s
    let (answers, s'') := attempts qs s'
    (answer :: answers, s'')

end ReadRequest
end BitPack
