/-
# Sessions

A session has one writer and at most one reader and goes through steps.  A step makes a new
writer or opens a new reader, writes or reads, or asks about the one or the other.  A step
that fails is answered with its error and the session goes on with what the step left.
-/
import BitPack.BitList
import BitPack.Reader
import BitPack.Writer

namespace BitPack

namespace Session

/-- A writer of a session: over words or over a plain list. -/
inductive Output where
  | words (w : Writer)
  | list (s : BitList)

/-- A reader of a session: over words or over a plain list. -/
inductive Input where
  | words (r : Reader)
  | list (f : BitFeed)

/-- What can be asked about a writer. -/
inductive WriterQuery where
  | bitLength
  | byteLength
  | bytes
  | words
  | paddedText
deriving DecidableEq, Repr

/-- What can be asked about a reader. -/
inductive ReaderQuery where
  | reachedEnd
  | onlyZeroesLeft
  | position
  | capacity
  | bitsRemaining
deriving DecidableEq, Repr

/-- Where the contents of a new reader come from. -/
inductive Contents where
  /-- Given bytes. -/
  | bytes (data : Bytes)
  /-- Given words, which have to fit. -/
  | words (words : List Int)
  /-- Given words, which are not checked. -/
  | raw (words : List Int)
  /-- The words of the writer. -/
  | writerWords
  /-- The first bytes of the writer, all of them when no number is given. -/
  | writerBytes (count : Option Nat)

/-- A step of a session.  The size of a word may be left out. -/
inductive Step where
  /-- Makes a new writer over words. -/
  | newWriter (wordBits : Option Int)
  /-- Makes a new writer over a plain list. -/
  | newListWriter
  /-- Opens a reader over words. -/
  | openReader (contents : Contents) (wordBits : Option Int)
  /-- Opens a reader over a plain list. -/
  | openList (text : String)
  /-- Writes. -/
  | write (request : WriteRequest)
  /-- Asks about the writer. -/
  | askWriter (query : WriterQuery)
  /-- Reads. -/
  | read (request : ReadRequest)
  /-- Asks about the reader. -/
  | askReader (query : ReaderQuery)

/-- The answer to a step. -/
inductive Answer where
  | nothing
  | number (n : Int)
  | numbers (ns : List Int)
  | flag (b : Bool)
  | text (s : String)
  | bytes (data : Bytes)
deriving DecidableEq, Repr

/-- What comes of a step: its events and its answer, none when there is no reader to read
from. -/
structure Outcome where
  /-- The events of the step. -/
  events : List Event
  /-- The answer of the step. -/
  answer : Option (Except Error Answer)

end Session

/-- A session: its writer and its reader. -/
structure Session where
  /-- The current writer. -/
  output : Session.Output
  /-- The current reader. -/
  input : Option Session.Input

namespace Session

/-! ## Writers and readers -/

namespace Output

/-- The number of bits written. -/
def bitLength : Output → Nat
  | words w => w.bitLength
  | list s => BitSink.bitLength s

/-- The bytes of the bits written. -/
def bytes : Output → Bytes
  | words w => w.bytes
  | list s => BitSink.bytes s

/-- The words written; a plain list has none. -/
def wordList : Output → List Nat
  | words w => w.words
  | list _ => []

/-- Carries out a request to write. -/
def write (request : WriteRequest) : Output → Except Error Unit × Output
  | words w => (request.attempt w).map id words
  | list s => (request.attempt s).map id list

/-- Answers a question about a writer. -/
def ask : WriterQuery → Output → Answer
  | .bitLength, o => .number o.bitLength
  | .byteLength, o => .number (byteCount o.bitLength)
  | .bytes, o => .bytes o.bytes
  | .words, o => .numbers (o.wordList.map Int.ofNat)
  | .paddedText, words w => .text w.paddedText
  | .paddedText, list s => .text (BitText.ofBits s.bits)

end Output

namespace Input

/-- The number of bits taken. -/
def position : Input → Nat
  | words r => r.position
  | list f => f.position

/-- The number of bits not taken yet. -/
def bitsRemaining : Input → Nat
  | words r => r.bitsRemaining
  | list f => f.bitsRemaining

/-- The number of bits taken and not taken yet. -/
def capacity : Input → Nat
  | words r => r.capacity
  | list f => f.bits.length

/-- Whether every bit has been taken. -/
def reachedEnd : Input → Bool
  | words r => BitSource.reachedEnd r
  | list f => BitSource.reachedEnd f

/-- Whether every bit has been taken or only zero bits are known to be left. -/
def onlyZeroesLeft : Input → Bool
  | words r => BitSource.onlyZeroesLeft r
  | list f => BitSource.onlyZeroesLeft f

/-- Carries out a request to read. -/
def read (request : ReadRequest) : Input → Except Error ReadAnswer × Input
  | words r => (request.attempt r).map id words
  | list f => (request.attempt f).map id list

/-- Answers a question about a reader. -/
def ask : ReaderQuery → Input → Answer
  | .reachedEnd, i => .flag i.reachedEnd
  | .onlyZeroesLeft, i => .flag i.onlyZeroesLeft
  | .position, i => .number i.position
  | .capacity, i => .number i.capacity
  | .bitsRemaining, i => .number i.bitsRemaining

end Input

/-! ## Steps -/

/-- The answer to a read: a field that is cut short has no number. -/
def Answer.ofRead : ReadAnswer → Answer
  | .bits t => .numbers [t.value, t.count]
  | .text s => .text s
  | .field (.value v) => .number v
  | .field (.truncated ..) => .nothing

/-- The size of a word that may be left out. -/
def wordSize : Option Int → Except Error Width
  | none => .ok .w64
  | some n => checkWordSize n

/-- A reader over the given contents. -/
def openContents (s : Session) (w : Width) : Contents → Except Error Reader
  | .bytes data => .ok (Reader.ofBytes w data)
  | .words words => Reader.ofWords w words
  | .raw words => .ok (Reader.ofRaw w words)
  | .writerWords => Reader.ofWords w (s.output.wordList.map Int.ofNat)
  | .writerBytes none => .ok (Reader.ofBytes w s.output.bytes)
  | .writerBytes (some n) => .ok (Reader.ofBytes w (s.output.bytes.take n))

/-- The session at its start, with a writer over 64-bit words, and its first events. -/
def start : List Event × Session :=
  let w := Writer.empty .w64
  ([w.created], ⟨.words w, none⟩)

/-- Goes through one step. -/
def step (s : Session) : Step → Outcome × Session
  | .newWriter wordBits =>
    match wordSize wordBits with
    | .error e => (⟨[], some (.error e)⟩, s)
    | .ok w =>
      let o := Writer.empty w
      (⟨[o.created], some (.ok (.number w.bits))⟩, { s with output := .words o })
  | .newListWriter =>
    (⟨[], some (.ok .nothing)⟩, { s with output := .list BitList.empty })
  | .openReader contents wordBits =>
    match wordSize wordBits >>= fun w => s.openContents w contents with
    | .error e => (⟨[], some (.error e)⟩, s)
    | .ok r =>
      (⟨[r.created], some (.ok (.numbers [r.wordSize.bits, r.capacity]))⟩,
        { s with input := some (.words r) })
  | .openList text =>
    let bits := (BitText.toBits? text).getD []
    (⟨[], some (.ok .nothing)⟩, { s with input := some (.list (BitFeed.ofBits bits)) })
  | .write request =>
    let (result, o) := s.output.write request
    (⟨[], some (result.map fun _ => .nothing)⟩, { s with output := o })
  | .askWriter query => (⟨[], some (.ok (s.output.ask query))⟩, s)
  | .read request =>
    match s.input with
    | none => (⟨[], none⟩, s)
    | some i =>
      let (result, i') := i.read request
      let events := match result with | .ok a => a.events | .error _ => []
      (⟨events, some (result.map Answer.ofRead)⟩, { s with input := some i' })
  | .askReader query =>
    (⟨[], s.input.map fun i => .ok (i.ask query)⟩, s)

/-- Goes through steps one after the other: what comes of each and the session behind it. -/
def trace : List Step → Session → List (Outcome × Session)
  | [], _ => []
  | st :: sts, s => s.step st :: trace sts (s.step st).2

/-- Whether a step is about the reader. -/
def Step.onReader : Step → Bool
  | .openReader .. | .openList _ | .read _ | .askReader _ => true
  | .newWriter _ | .newListWriter | .write _ | .askWriter _ => false

end Session
end BitPack
