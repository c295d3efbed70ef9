/-
# Sequences of values

A sequence of values is encoded field by field into one stream.  Decoding either takes a
given number of values or goes on until only zero bits of the last word are left; since a
field of zeros there looks like padding, trailing zeros that start in the last word are
dropped by the latter.

Both report what they do: a stream that ends inside a value is an event of its own, followed
by the failure of the whole sequence.
-/
import BitPack.Params
import BitPack.Writer
import BitPack.Reader

namespace BitPack

namespace Params

/-- Writes one field. -/
def writeField {σ : Type} [BitSink σ] (p : Params) (v : Int) : EStateM Error σ Unit :=
  if p.signed then
    BitSink.writeSigned v p.chunkLength p.zigzagExponent p.width.bits
  else
    BitSink.writeUnsigned v p.chunkLength p.width.bits

/-- Reads one field. -/
def readField {σ : Type} [BitSource σ] (p : Params) : EStateM Error σ FieldRead :=
  if p.signed then
    BitSource.readSigned p.chunkLength p.zigzagExponent p.width.bits
  else
    BitSource.readUnsigned p.chunkLength p.width.bits

/-- Writes the fields of a sequence the first of which has the given index.  A value out of bounds
is named with its index; whether that is an error of encoding depends on whether it can be
printed (`Error.kind`). -/
def writeFields {σ : Type} [BitSink σ] (p : Params) :
    Nat → List Int → EStateM Error σ Unit
  | _, [] => pure ()
  | index, v :: vs => do
    if p.InRange v then
      p.writeField v
      p.writeFields (index + 1) vs
    else
      throw (.outOfBounds v index p.minValue p.maxValue p.width.bits)

end Params

/-! ## Encoding -/

/-- Encodes a sequence of values and keeps the writer. -/
def encodeToWriter (p : Params) (w : Width) (values : List Int) : Traced Writer :=
  let start := Writer.empty w
  match (p.writeFields 0 values).run start with
  | .ok _ wr => ⟨[start.created, .valuesEncoded wr.bitLength p.width.bits], .ok wr⟩
  | .error e _ => ⟨[start.created], .error e⟩

/-- Encodes a sequence of values. -/
def encode (p : Params) (w : Width) (values : List Int) : Traced Bytes := do
  let wr ← encodeToWriter p w values
  return wr.bytes

/-! ## Decoding -/

namespace Params

@[simp] theorem ofInts_chunking (p : Params) :
    Chunking.ofInts p.chunkLength p.width.bits = .ok p.chunking :=
  p.chunking.ofInts_self

/-- A field that is read to its end takes at least one bit. -/
theorem bitsRemaining_readField_lt (p : Params) {r r' : Reader} {v : Int}
    (h : p.readField.run r = .ok (.value v) r') : r'.bitsRemaining < r.bitsRemaining := by
  have hp : 0 < p.chunking.width.bits := p.width.bits_pos
  unfold readField at h
  split at h
  · simp only [BitSource.readSigned, EStateM.run_bind, ofInts_chunking, run_liftM_ok,
      checkZigzagExponent_of_lt p.zigzagExponent_lt] at h
    split at h
    · next x s hx =>
      cases x with
      | value u =>
        dsimp only at h
        cases hd : Zigzag.decodeBlocks u p.zigzagExponent with
        | ok w =>
          rw [EStateM.run_bind, hd, run_liftM_ok] at h
          simp only [EStateM.run_pure, EStateM.Result.ok.injEq] at h
          obtain ⟨-, rfl⟩ := h
          exact Reader.bitsRemaining_readChunks_lt _ _ _ hp hx
        | error e => rw [EStateM.run_bind, hd, run_liftM_error] at h; simp at h
      | truncated => simp at h
    · simp at h
  · rw [BitSource.readUnsigned, EStateM.run_bind, ofInts_chunking, run_liftM_ok] at h
    exact Reader.bitsRemaining_readChunks_lt _ _ _ hp h

end Params

/-- The result of decoding when the stream ends inside the value of an index.  The events come
first.  Then the index and the number of values asked for are named; whether that is an error of
decoding depends on whether they can be printed (`Error.kind`). -/
def truncatedAt (index : Nat) (count : Option Nat) (t : FieldRead) (r : Reader) :
    Traced (List Int) :=
  ⟨t.events ++ [.decodeFailed index count r.position], .error (.truncated index count)⟩

/-- Decodes the values of a sequence of `count` from the given index on, as many as are
left. -/
def decodeFrom (p : Params) (count : Nat) : Nat → Nat → Reader → Traced (List Int)
  | _, 0, _ => pure []
  | index, left + 1, r =>
    match p.readField.run r with
    | .ok (.value v) r' => do
      let vs ← decodeFrom p count (index + 1) left r'
      return v :: vs
    | .ok t r' => truncatedAt index (some count) t r'
    | .error e _ => ⟨[], .error e⟩

/-- Decodes a number of values. -/
def decode (p : Params) (w : Width) (data : Bytes) (count : Int) : Traced (List Int) :=
  if count < 0 then ⟨[], .error (.negativeCount count)⟩
  else do
    let r := Reader.ofBytes w data
    Traced.report [r.created]
    decodeFrom p count.toNat 0 count.toNat r

/-- Decodes values from the given index on until only zero bits of the last word are
left. -/
def decodeAllFrom (p : Params) (index : Nat) (r : Reader) : Traced (List Int) :=
  if r.onlyZeroesLeft then pure []
  else
    match h : p.readField.run r with
    | .ok (.value v) r' => do
      let vs ← decodeAllFrom p (index + 1) r'
      return v :: vs
    | .ok t r' => truncatedAt index none t r'
    | .error e _ => ⟨[], .error e⟩
termination_by r.bitsRemaining
decreasing_by exact p.bitsRemaining_readField_lt h

/-- Decodes all values, up to trailing zeros that start in the last word. -/
def decodeAll (p : Params) (w : Width) (data : Bytes) : Traced (List Int) := do
  let r := Reader.ofBytes w data
  Traced.report [r.created]
  decodeAllFrom p 0 r

end BitPack
