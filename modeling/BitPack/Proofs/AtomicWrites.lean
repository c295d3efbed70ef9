/-
# Writes that fail change nothing

A field is written in many raw writes, and each of them may be refused, so a write could fail when
part of its bits is written already.  On a faithful destination this does not happen: what passes
the checks in front of a write is written to its end (`WriteRequest.run_appends`), and the bits
that are written are as many as the arguments of the write say (`WriteRequest.growth_of_stream`).
A destination that logs its raw writes is faithful itself (`Logged.faithful`), and its log shows
that no raw write has been made when a write fails (`Writer.write_atomic`).
-/
import BitPack.Proofs.Sizes

namespace BitPack

/-! ## How much a write adds -/

/-- By how many bits a write lengthens a stream, computed from its arguments. -/
def WriteRequest.growth : WriteRequest → Except Error Int
  | bits _ count => return count
  | text s => return s.length
  | bitset _ size count => return count.getD size
  | unsigned value chunkLength width => do
    let n ← unsignedSize value chunkLength width
    return n
  | signed value chunkLength exponent width => do
    let u ← Zigzag.encodeBlocks value exponent
    let n ← unsignedSize u chunkLength width
    return n

/-- A write that appends bits adds as many as its arguments say. -/
lemma WriteRequest.growth_of_stream {q : WriteRequest} {u : Bits} (h : q.stream = .ok u) :
    q.growth = .ok u.length := by
  cases q with
  | bits value count =>
    obtain ⟨n, rfl, -, rfl⟩ := stream_bits_eq_ok_iff.mp h
    rw [Bits.length_ofInt]
    rfl
  | text s =>
    obtain ⟨rfl, -⟩ := BitText.checkedBits_eq_ok_iff.mp h
    rw [growth, BitText.length_ofBits]
    rfl
  | bitset value size count =>
    obtain ⟨n, hcount, -, -, rfl⟩ := stream_bitset_eq_ok_iff.mp h
    rw [growth, hcount, Bits.length_ofInt]
    rfl
  | unsigned value chunkLength width =>
    rw [growth, unsignedSize_eq_map_length, h]
    rfl
  | signed value chunkLength exponent width =>
    obtain ⟨c, k, rfl, rfl, rfl, hk, hv, rfl⟩ := stream_signed_eq_ok_iff.mp h
    have hfold := (Zigzag.fold_lt_iff hk value).mpr hv
    rw [growth, Zigzag.encodeBlocks_eq_ok hk hv, c.length_encode]
    show (unsignedSize (Zigzag.fold k value) c.length c.width.bits >>= _) = _
    rw [unsignedSize_eq_ok_iff.mpr ⟨_, rfl, hfold, rfl⟩]
    rfl

/-! ## Logging raw writes -/

/-- A raw write: the low bits of a number. -/
structure RawWrite where
  /-- The number. -/
  value : Int
  /-- The number of bits. -/
  count : Int

/-- The bits of a raw write. -/
def RawWrite.bits (r : RawWrite) : Bits := Bits.ofInt r.count.toNat r.value

/-- A destination and the raw writes that have been made on it. -/
structure Logged (σ : Type) where
  /-- The destination. -/
  sink : σ
  /-- The raw writes, last one first. -/
  writes : List RawWrite

namespace Logged

variable {σ : Type}

/-- A destination on which no raw write has been made. -/
def start (s : σ) : Logged σ := ⟨s, []⟩

/-- The bits of all raw writes, in order. -/
def bits (x : Logged σ) : Bits := x.writes.reverse.flatMap RawWrite.bits

lemma bits_cons (s s' : σ) (r : RawWrite) (rs : List RawWrite) :
    (⟨s, r :: rs⟩ : Logged σ).bits = (⟨s', rs⟩ : Logged σ).bits ++ r.bits := by
  rw [bits, List.reverse_cons, List.flatMap_append, List.flatMap_singleton]
  rfl

variable [BitSink σ]

/-- A raw write that is refused is not logged. -/
instance : BitSink (Logged σ) where
  writeBits value count := fun x =>
    match (BitSink.writeBits value count).run x.sink with
    | .ok _ s => .ok () ⟨s, ⟨value, count⟩ :: x.writes⟩
    | .error e s => .error e ⟨s, x.writes⟩
  bitLength x := BitSink.bitLength x.sink
  bytes x := BitSink.bytes x.sink

lemma run_writeBits (value count : Int) (x : Logged σ) :
    (BitSink.writeBits value count).run x =
      match (BitSink.writeBits value count).run x.sink with
      | .ok _ s => .ok () ⟨s, ⟨value, count⟩ :: x.writes⟩
      | .error e s => .error e ⟨s, x.writes⟩ :=
  rfl

/-- Logging keeps a destination faithful, and behind the run `t₀` that it held at the start stand
the bits of all raw writes. -/
lemma faithful {R : σ → Bits → Prop} (hR : BitSink.Faithful R) (t₀ : Bits) :
    BitSink.Faithful fun (x : Logged σ) t => R x.sink t ∧ t = t₀ ++ x.bits where
  writeBits {x t} h value count := by
    obtain ⟨hx, rfl⟩ := h
    have hwrite := hR.writeBits hx value count
    rcases hs : (WriteRequest.bits value count).stream with e | u
    · rw [hs] at hwrite
      show (BitSink.writeBits value count).run x = .error e x
      rw [run_writeBits,
        show (BitSink.writeBits value count).run x.sink = .error e x.sink from hwrite]
    · rw [hs] at hwrite
      obtain ⟨s', hrun, h'⟩ := hwrite
      refine ⟨⟨s', ⟨value, count⟩ :: x.writes⟩, ?_, h', ?_⟩
      · rw [run_writeBits, hrun]
      · obtain ⟨n, rfl, -, rfl⟩ := stream_bits_eq_ok_iff.mp hs
        rw [bits_cons s' x.sink, List.append_assoc, RawWrite.bits, Int.toNat_natCast]
  bitLength h := hR.bitLength h.1
  bytes h := hR.bytes h.1

end Logged

/-! ## Writers -/

namespace Writer

open WriteRequest (attempts)

/-- A writer is given by the run that it holds. -/
lemma eq_of_holds {w : Width} {wr wr' : Writer} {s : Bits} (h : Holds w wr s)
    (h' : Holds w wr' s) : wr = wr' := by
  have hstack : wr.stack = wr'.stack := by
    rw [← List.reverse_inj, ← words, ← words, h.words_eq, h'.words_eq]
  cases wr
  cases wr'
  simp only [Writer.mk.injEq]
  exact ⟨h.wordSize_eq.trans h'.wordSize_eq.symm, hstack,
    h.bitLength_eq.trans h'.bitLength_eq.symm⟩

/-- **Writes are atomic.**  Behind any writes, a further one that fails leaves the writer as it
was, and no raw write has been made before it failed.  One that succeeds keeps all bits that were
written before and adds those of its raw writes, as many as its arguments say. -/
theorem write_atomic (w : Width) (qs : List WriteRequest) (q : WriteRequest) :
    let wr := (attempts qs (empty w)).2
    let logged := q.attempt (Logged.start wr)
    (logged.1 = (q.attempt wr).1 ∧ logged.2.sink = (q.attempt wr).2) ∧
      match q.attempt wr with
      | (.error _, wr') => wr' = wr ∧ logged.2.writes = []
      | (.ok _, wr') =>
        ∃ u : Bits, q.growth = .ok u.length ∧ wr'.bitLength = wr.bitLength + u.length ∧
          wr'.contents = wr.contents ++ u ∧ logged.2.bits = u := by
  intro wr logged
  have hholds : Holds w wr (WriteRequest.streams qs) := holds_attempts w qs
  have hlog := Logged.faithful (faithful w) (WriteRequest.streams qs)
  have hstart : Holds w (Logged.start wr).sink (WriteRequest.streams qs) ∧
      WriteRequest.streams qs = WriteRequest.streams qs ++ (Logged.start wr).bits :=
    ⟨hholds, (List.append_nil _).symm⟩
  rcases hq : q.stream with e | u
  · have hwr := WriteRequest.attempt_of_error (faithful w) hholds hq
    have hlogged : logged = (.error e, Logged.start wr) :=
      WriteRequest.attempt_of_error hlog hstart hq
    rw [hwr, hlogged]
    exact ⟨⟨rfl, rfl⟩, rfl, rfl⟩
  · obtain ⟨wr', hwr, hholds'⟩ := WriteRequest.attempt_of_stream (faithful w) hholds hq
    obtain ⟨x, hx, hsink, hbits⟩ : ∃ x, logged = (.ok (), x) ∧
        Holds w x.sink (WriteRequest.streams qs ++ u) ∧
        WriteRequest.streams qs ++ u = WriteRequest.streams qs ++ x.bits :=
      WriteRequest.attempt_of_stream hlog hstart hq
    rw [hwr, hx]
    refine ⟨⟨rfl, eq_of_holds hsink hholds'⟩, u, WriteRequest.growth_of_stream hq, ?_, ?_,
      (List.append_cancel_left hbits).symm⟩
    · rw [hholds'.bitLength_eq, hholds.bitLength_eq, List.length_append]
    · rw [contents_of_holds hholds', contents_of_holds hholds]

end Writer
end BitPack
