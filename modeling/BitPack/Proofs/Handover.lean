/-
# Handing a stream to a reader

A reader gets what has been written either as the words of the writer or as their bytes.  The
bytes end with the last byte that holds a bit, so the last word may be cut short on the way; the
reader completes it with zeros, and zeros are what the writer has above its last bit.  Both ways
therefore give the same reader.  In the other direction, laying out the words of some bytes gives
the bytes back with less than a word of zeros behind them (`Bytes.exists_ofWords_toWords`).  Both
facts together are `Reader.handover`.
-/
import BitPack.Proofs.ListWriter
import BitPack.Proofs.ReaderAhead

namespace BitPack

/-- Counting in parts of a size makes no difference. -/
lemma wordsNeeded_mul_mul {m n : Nat} (hm : 0 < m) (hn : 0 < n) (len : Nat) :
    wordsNeeded (m * n) (m * len) = wordsNeeded n len := by
  have hle := Nat.mul_le_mul_left m (le_mul_wordsNeeded hn len)
  have hlt := Nat.mul_lt_mul_of_pos_left (mul_wordsNeeded_lt hn len) hm
  rw [Nat.mul_add] at hlt
  refine wordsNeeded_eq (Nat.mul_pos hm hn) ?_ ?_
  · rwa [Nat.mul_assoc]
  · rwa [Nat.mul_assoc]

/-- The words of a run that has been completed to whole parts of a word are those of the run. -/
lemma Bits.toWords_pad_of_dvd {m n : Nat} (hn : 0 < n) (hm : 0 < m) (hmn : m ∣ n) (s : Bits) :
    toWords n (pad m s) = toWords n s := by
  rw [← toWords_pad hn, pad_pad hn hm hmn, toWords_pad hn]

namespace Bytes

lemma toBits_replicate_zero (k : Nat) :
    toBits (List.replicate k 0) = List.replicate (8 * k) false := by
  induction k with
  | zero => rfl
  | succ k ih =>
    rw [List.replicate_succ, toBits_cons, ih, Nat.mul_succ, Nat.add_comm,
      ← List.replicate_append_replicate]
    rfl

/-- Casting the bytes of a run to words packs the run. -/
lemma toWords_ofBits (w : Width) (s : Bits) : toWords w (ofBits s) = Bits.toWords w.bits s := by
  rw [toWords_eq_toWords, toBits_ofBits,
    Bits.toWords_pad_of_dvd w.bits_pos (by decide) w.eight_dvd_bits]

/-- Laying out the words of bytes completes these with zero bytes to a whole word. -/
lemma exists_ofWords_toWords (w : Width) (s : Bytes) :
    ∃ k < w.bytes, ofWords w (toWords w s) = s ++ List.replicate k 0 := by
  have hlt := mul_wordsNeeded_lt w.bytes_pos s.length
  have hle := le_mul_wordsNeeded w.bytes_pos s.length
  refine ⟨w.bytes * wordsNeeded w.bytes s.length - s.length, by omega, ?_⟩
  -- both sides have the bits of the bytes completed to whole words
  have hcount : wordsNeeded w.bits (8 * s.length) = wordsNeeded w.bytes s.length :=
    wordsNeeded_mul_mul (by decide) w.bytes_pos s.length
  apply toBits_injective
  rw [toBits_ofWords, toWords_eq_toWords, Bits.unpack_toWords w.bits_pos, Bits.pad,
    length_toBits, hcount, toBits_append, toBits_replicate_zero, Nat.mul_sub, Width.bits,
    Nat.mul_assoc]

end Bytes

namespace Reader

/-- A reader opened on the bytes of a writer is the one opened on its words. -/
lemma ofBytes_of_holds {w : Width} {wr : Writer} {s : Bits} (h : Writer.Holds w wr s) :
    ofBytes w wr.bytes = ofRaw w (wr.words.map Int.ofNat) := by
  rw [ofBytes, Writer.bytes_of_holds h, Bytes.toWords_ofBits, ← h.words_eq]
  rfl

/-- **Handing over a stream.**  After any writes, failures among them, the words of the writer
are accepted by a reader, and a reader of the same word size over its bytes is the same reader: it
has these very words, just as many as the bits need.  Conversely the words of a reader over any
bytes can be laid out as bytes, and these are the given ones with zeros behind them that do not
fill a word. -/
theorem handover (w : Width) :
    (∀ qs : List WriteRequest,
      let wr := (WriteRequest.attempts qs (Writer.empty w)).2
      ∃ r, ofWords w (wr.words.map Int.ofNat) = .ok r ∧ ofBytes w wr.bytes = r ∧
        r.words.toList = wr.words.map Int.ofNat ∧
        r.capacity = w.bits * wordsNeeded w.bits wr.bitLength) ∧
      ∀ data : Bytes, ∃ words k,
        (ofBytes w data).words.toList = words.map Int.ofNat ∧ k < w.bytes ∧
          Bytes.ofWords? w words = some (data ++ List.replicate k 0) := by
  constructor
  · intro qs wr
    have h : Writer.Holds w wr (WriteRequest.streams qs) := Writer.holds_attempts w qs
    refine ⟨_, ofWords_eq_ok fun x hx => Writer.lt_of_mem_words h hx, ofBytes_of_holds h,
      rfl, ?_⟩
    rw [capacity, h.bitLength_eq, ← Writer.length_words_of_holds h, Nat.mul_comm]
    simp [ofRaw]
  · intro data
    obtain ⟨k, hk, hbytes⟩ := Bytes.exists_ofWords_toWords w data
    refine ⟨Bytes.toWords w data, k, rfl, hk, ?_⟩
    rw [Bytes.ofWords?_of_fits fun x hx => Bytes.lt_of_mem_toWords hx, hbytes]

end Reader
end BitPack
