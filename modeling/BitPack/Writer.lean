/-
# Writers over words

A writer packs bits into words of one size: the first bit written is the lowest bit of the
first word.  It only appends, and the unused high bits of its last word are zero.  Its bytes are
those of its words on a little-endian host.
-/
import BitPack.Event
import BitPack.Segment
import BitPack.Sink

namespace BitPack

/-- A writer: its words so far, newest first, and the number of bits written. -/
structure Writer where
  /-- The size of the words. -/
  wordSize : Width
  /-- The words, newest first. -/
  stack : List Nat
  /-- The number of bits written. -/
  bitLength : Nat
deriving DecidableEq, Repr

namespace Writer

/-- A writer without a bit. -/
def empty (w : Width) : Writer := ⟨w, [], 0⟩

/-- The event of making a writer. -/
def created (wr : Writer) : Event := .writerCreated wr.wordSize.bits

/-- The words, first one first. -/
def words (wr : Writer) : List Nat := wr.stack.reverse

/-- Puts bits into a segment behind the last bit: a segment at offset zero opens a word. -/
def deposit (stack : List Nat) (offset bits : Nat) : List Nat :=
  if offset = 0 then bits :: stack
  else match stack with
    | [] => [bits * 2 ^ offset]
    | last :: rest => (last + bits * 2 ^ offset) :: rest

/-- Puts the low bits of a number into segments, the lowest bits into the first one. -/
def depositAll : List Nat → Nat → List Segment → List Nat
  | stack, _, [] => stack
  | stack, bits, s :: ss =>
    depositAll (deposit stack s.offset (bits % 2 ^ s.length)) (bits / 2 ^ s.length) ss

/-- Appends the `n` bits of a number below `2 ^ n`. -/
def append (wr : Writer) (bits n : Nat) : Writer where
  wordSize := wr.wordSize
  stack := depositAll wr.stack bits (segments wr.wordSize wr.bitLength n)
  bitLength := wr.bitLength + n

/-- The bytes of the words, on a little-endian host, without those behind the last bit. -/
def bytes (wr : Writer) : Bytes :=
  (Bytes.ofWords wr.wordSize wr.words).take (byteCount wr.bitLength)

/-- The bits as text, completed with zeros to a whole word. -/
def paddedText (wr : Writer) : String :=
  BitText.ofWords wr.wordSize.bits (wr.words.map fun x : Nat => (x : Int))

instance : BitSink Writer where
  writeBits value count := do
    let n ← checkCount maxRawBits count
    modify fun wr => wr.append (Bits.low n value) n
  bitLength := bitLength
  bytes := bytes

end Writer
end BitPack
