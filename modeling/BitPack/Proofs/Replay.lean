/-
# Replaying a stream of mixed writes

Every write has a matching read: the raw read of as many bits, the text of as many
characters, the bitset of the same size, the field with the same parameters.  In front of the
bits of a write the matching read gives back what was written and stops right behind them,
whatever follows (`WriteRequest.answer_stream_append`).  So the matching reads of any
sequence of writes replay the sequence, whether the reader is opened on the words of the
writer or on its bytes, and with words of whatever size (`Writer.replay`).
-/
import BitPack.Proofs.ReaderAhead
import BitPack.Proofs.WriterContents

namespace BitPack

namespace WriteRequest

/-- The read that matches a write. -/
def matching : WriteRequest → ReadRequest
  | bits _ count => .bits count
  | text s => .text s.length
  | bitset _ size count => .bitset size count
  | unsigned _ chunkLength width => .unsigned chunkLength width
  | signed _ chunkLength exponent width => .signed chunkLength exponent width

/-- What was written, as the matching read answers it: raw bits are taken modulo a power of
two. -/
def readBack : WriteRequest → ReadAnswer
  | bits value count => .bits ⟨value % 2 ^ count.toNat, count⟩
  | text s => .text s
  | bitset value size count =>
    .bits ⟨value % 2 ^ (count.getD size).toNat, count.getD size⟩
  | unsigned value _ _ => .field (.value value)
  | signed value _ _ _ => .field (.value value)

lemma ofBits_ofInt (n : Nat) (x : Int) : Taken.ofBits (Bits.ofInt n x) = ⟨x % 2 ^ n, n⟩ := by
  rw [Taken.ofBits, Bits.toNat_ofInt, Bits.coe_low, Bits.length_ofInt]

/-- In front of the bits of a write, the matching read gives back what was written and leaves
what follows. -/
lemma answer_stream_append {q : WriteRequest} {u : Bits} (hq : q.stream = .ok u) (rest : Bits) :
    q.matching.answer (u ++ rest) = .ok (q.readBack, rest) := by
  cases q with
  | bits value count =>
    obtain ⟨n, rfl, hn, rfl⟩ := stream_bits_eq_ok_iff.mp hq
    rw [matching, ReadRequest.answer_bits hn, List.take_left' (Bits.length_ofInt n value),
      List.drop_left' (Bits.length_ofInt n value), ofBits_ofInt, readBack, Int.toNat_natCast]
  | text s =>
    obtain ⟨rfl, hu⟩ := BitText.checkedBits_eq_ok_iff.mp hq
    rw [matching, BitText.length_ofBits, ReadRequest.answer_text hu, List.take_left' rfl,
      List.drop_left' rfl, readBack]
  | bitset value size count =>
    obtain ⟨n, hcount, hsize, hn, rfl⟩ := stream_bitset_eq_ok_iff.mp hq
    rw [matching, ReadRequest.answer_bitset hcount hsize hn,
      List.take_left' (Bits.length_ofInt n value), List.drop_left' (Bits.length_ofInt n value),
      ofBits_ofInt, readBack, hcount, Int.toNat_natCast]
  | unsigned value chunkLength width =>
    obtain ⟨c, n, rfl, rfl, rfl, hn, rfl⟩ := stream_unsigned_eq_ok_iff.mp hq
    rw [matching, ReadRequest.answer_unsigned,
      Chunking.read_of_some (Chunking.decode_encode_append hn rest), readBack]
  | signed value chunkLength exponent width =>
    obtain ⟨c, k, rfl, rfl, rfl, hk, hv, rfl⟩ := stream_signed_eq_ok_iff.mp hq
    have hfold := (Zigzag.fold_lt_iff hk value).mpr hv
    rw [matching, ReadRequest.answer_signed c hk,
      Chunking.read_of_some (Chunking.decode_encode_append hfold rest), Zigzag.unfold_fold,
      readBack]

end WriteRequest

/-! ## Replaying -/

namespace ReadRequest

variable {σ : Type} [BitSource σ] {R : σ → Bits → Prop} (hR : BitSource.Faithful R)
include hR

/-- The matching reads of writes, one after the other, in front of the bits of the writes. -/
lemma mapM_matching {s : σ} {rest : Bits} {qs : List WriteRequest}
    (hqs : ∀ q ∈ qs, ∃ u, q.stream = .ok u) (h : R s (WriteRequest.streams qs ++ rest)) :
    ∃ s', (qs.mapM fun q : WriteRequest => q.matching.run).run s =
        .ok (qs.map WriteRequest.readBack) s' ∧
      R s' rest := by
  induction qs generalizing s with
  | nil => exact ⟨s, rfl, h⟩
  | cons q qs ih =>
    -- the bits of the first write are in front of those of the others
    obtain ⟨⟨u, hu⟩, hqs⟩ := List.forall_mem_cons.mp hqs
    rw [WriteRequest.streams, List.flatMap_cons, hu, List.append_assoc] at h
    have hq := run_yields hR h q.matching
    rw [show (Except.ok u : Except Error Bits).toOption.getD [] = u from rfl,
      WriteRequest.answer_stream_append hu] at hq
    obtain ⟨s₁, hs₁, h₁⟩ := hq
    obtain ⟨s', hs', h'⟩ := ih hqs h₁
    refine ⟨s', ?_, h'⟩
    rw [List.mapM_cons, EStateM.run_bind, hs₁]
    dsimp only
    rw [EStateM.run_bind, hs']
    rfl

end ReadRequest

namespace Reader

/-- A reader replays writes of `len` bits: the matching reads give back what was written.
Afterwards just these bits are taken and only zeros are left, less than a word of them. -/
def Replays (r : Reader) (qs : List WriteRequest) (len : Nat) : Prop :=
  ∃ r', (qs.mapM fun q : WriteRequest => q.matching.run).run r =
      .ok (qs.map WriteRequest.readBack) r' ∧
    r'.position = len ∧ r'.bitsRemaining < r.wordSize.bits ∧ r'.onlyZeroesLeft = true

/-- A reader at its start replays the writes whose bits, completed to a whole word, are those
of its words. -/
lemma replays_of_bits {r : Reader} (hfit : r.Fits) (hstart : r.position = 0)
    {qs : List WriteRequest} (hqs : ∀ q ∈ qs, ∃ u, q.stream = .ok u)
    (hbits : r.bits = Bits.pad r.wordSize.bits (WriteRequest.streams qs)) :
    r.Replays qs (WriteRequest.streams qs).length := by
  have hstart := ahead_start hstart
  rw [hbits, Bits.pad] at hstart
  obtain ⟨r', hrun, hahead⟩ := ReadRequest.mapM_matching (faithful hfit) hqs hstart
  -- behind the writes only the zeros are ahead that complete the last word
  have hzeros := List.length_replicate (a := false)
    (n := r.wordSize.bits * wordsNeeded r.wordSize.bits (WriteRequest.streams qs).length -
      (WriteRequest.streams qs).length)
  have hlt := mul_wordsNeeded_lt r.wordSize.bits_pos (WriteRequest.streams qs).length
  have hle := le_mul_wordsNeeded r.wordSize.bits_pos (WriteRequest.streams qs).length
  have hcap : r.capacity =
      r.wordSize.bits * wordsNeeded r.wordSize.bits (WriteRequest.streams qs).length := by
    rw [← length_bits, hbits, Bits.length_pad r.wordSize.bits_pos]
  have hpos := position_of_ahead hahead
  have hrest := length_of_ahead hahead
  refine ⟨r', hrun, by omega, by omega, (onlyZeroesLeft_iff hfit hahead).mpr ⟨by omega, ?_⟩⟩
  intro b hb
  exact List.eq_of_mem_replicate hb

end Reader

namespace Writer

/-- **Replay.**  After any sequence of writes that all succeed, a reader opened on the words of
the writer, or on its bytes with words of whatever size, replays the writes. -/
theorem replay {w : Width} {qs : List WriteRequest} {wr : Writer}
    (h : (qs.forM WriteRequest.run).run (empty w) = .ok () wr) :
    (∃ r, Reader.ofWords w (wr.words.map Int.ofNat) = .ok r ∧ r.Replays qs wr.bitLength) ∧
      ∀ w', (Reader.ofBytes w' wr.bytes).Replays qs wr.bitLength := by
  obtain ⟨hqs, hholds⟩ := WriteRequest.forM_eq_ok (faithful w) (holds_empty w) h
  rw [List.nil_append] at hholds
  have hfit : ∀ x ∈ wr.words, x < 2 ^ w.bits := fun x hx => lt_of_mem_words hholds hx
  rw [hholds.bitLength_eq]
  constructor
  · -- the words are those of the run
    refine ⟨_, Reader.ofWords_eq_ok hfit,
      Reader.replays_of_bits (Reader.fits_ofRaw hfit) rfl hqs ?_⟩
    exact unpack_of_holds hholds
  · -- the bytes complete the run to whole bytes first, which makes no difference
    intro w'
    refine Reader.replays_of_bits (Reader.fits_ofBytes w' wr.bytes) rfl hqs ?_
    rw [Reader.bits_ofBytes, bytes_of_holds hholds, Bytes.toBits_ofBits]
    exact Bits.pad_pad w'.bits_pos (by decide) w'.eight_dvd_bits _

/-- One write of every kind, a negative raw number and a field longer than a word among them. -/
theorem replay_one_of_each :
    let qs : List WriteRequest := [.bits (-3) 5, .text "0110", .unsigned 300 4 16,
      .signed (-2) 3 1 8, .bitset 5 9 (some 3)]
    let wr : Writer := ⟨.w8, [83, 12, 184, 221], 31⟩
    (qs.forM WriteRequest.run).run (empty .w8) = .ok () wr ∧
      (∃ r, Reader.ofWords .w8 (wr.words.map Int.ofNat) = .ok r ∧ r.Replays qs wr.bitLength) ∧
      ∀ w', (Reader.ofBytes w' wr.bytes).Replays qs wr.bitLength := by
  intro qs wr
  have hrun : (qs.forM WriteRequest.run).run (empty .w8) = .ok () wr := by
    with_unfolding_all rfl
  exact ⟨hrun, replay hrun⟩

end Writer
end BitPack
