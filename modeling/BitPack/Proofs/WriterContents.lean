/-
# What a writer holds

A writer holds a run of bits if its words are the packing of the run: all of them are full but
the last one, the high bits of which are zero.  Writing goes segment by segment, and every
segment fills what is left of the last word or opens a new one, so a raw write appends its
bits to the run that the writer holds (`Writer.holds_append`).  A writer is therefore a
faithful destination, and after any sequence of writes, failures among them, it holds the
bits of all writes that succeeded (`Writer.attempts_pack_streams`).
-/
import BitPack.Writer
import BitPack.Proofs.FaithfulSink

namespace BitPack.Writer

/-- A writer over words of a size holds a run of bits: its words are those of the run. -/
structure Holds (w : Width) (wr : Writer) (s : Bits) : Prop where
  wordSize_eq : wr.wordSize = w
  bitLength_eq : wr.bitLength = s.length
  words_eq : wr.words = Bits.toWords w.bits s

/-- The bits written so far, as the words hold them. -/
def contents (wr : Writer) : Bits :=
  (Bits.unpack wr.wordSize.bits (wr.words.map Int.ofNat)).take wr.bitLength

lemma holds_empty (w : Width) : Holds w (empty w) [] :=
  ⟨rfl, rfl, (Bits.toWords_nil w.bits).symm⟩

/-! ## Depositing segments -/

lemma deposit_zero (stack : List Nat) (bits : Nat) : deposit stack 0 bits = bits :: stack := by
  simp [deposit.eq_def]

lemma deposit_cons {offset : Nat} (h : offset ≠ 0) (last : Nat) (rest : List Nat) (bits : Nat) :
    deposit (last :: rest) offset bits = (last + bits * 2 ^ offset) :: rest := by
  rw [deposit.eq_def, if_neg h]

/-- A run cut behind its last full word. -/
lemma exists_full_words (n : Nat) (s : Bits) :
    ∃ u v, s = u ++ v ∧ u.length = n * (s.length / n) ∧ v.length = s.length % n := by
  have h := Nat.div_add_mod s.length n
  refine ⟨s.take (n * (s.length / n)), s.drop (n * (s.length / n)),
    (List.take_append_drop _ s).symm, List.length_take_of_le (by omega), ?_⟩
  rw [List.length_drop]
  omega

/-- A segment that fits the room above the last bit goes into the last word, or into a new
one if the last word is full. -/
lemma deposit_toWords {n : Nat} (hn : 0 < n) {s t : Bits} (ht : t ≠ [])
    (hfit : t.length ≤ n - s.length % n) :
    deposit (Bits.toWords n s).reverse (s.length % n) (Bits.toNat t) =
      (Bits.toWords n (s ++ t)).reverse := by
  have hmod := Nat.mod_lt s.length hn
  obtain ⟨u, v, hs, hu, hv⟩ := exists_full_words n s
  have hvt : (v ++ t).length ≤ n := by
    rw [List.length_append]
    omega
  have hnext : Bits.toWords n (s ++ t) =
      Bits.toWords n u ++ [Bits.toNat v + 2 ^ (s.length % n) * Bits.toNat t] := by
    rw [hs, List.append_assoc, Bits.toWords_append hn hu,
      Bits.toWords_of_length_le (List.append_ne_nil_of_right_ne_nil v ht) hvt,
      Bits.toNat_append, ← hs, hv]
  rw [hnext]
  by_cases h0 : s.length % n = 0
  · -- the last word is full
    obtain rfl : v = [] := List.eq_nil_of_length_eq_zero (by omega)
    rw [List.append_nil] at hs
    rw [h0, deposit_zero, hs]
    simp
  · -- the last word has room for the segment
    have hne : v ≠ [] := List.ne_nil_of_length_pos (by omega)
    have hlast : Bits.toWords n s = Bits.toWords n u ++ [Bits.toNat v] := by
      rw [hs, Bits.toWords_append hn hu, Bits.toWords_of_length_le hne (by omega)]
    rw [hlast, List.reverse_append, List.reverse_append, List.reverse_singleton,
      List.reverse_singleton, List.singleton_append, List.singleton_append, deposit_cons h0,
      Nat.mul_comm]

/-- Depositing a number segment by segment appends its low bits. -/
lemma depositAll_segments (w : Width) (s : Bits) (x n : Nat) :
    depositAll (Bits.toWords w.bits s).reverse x (segments w s.length n) =
      (Bits.toWords w.bits (s ++ Bits.ofInt n x)).reverse := by
  induction n using Nat.strongRecOn generalizing s x with
  | _ n ih =>
    rcases Nat.eq_zero_or_pos n with rfl | hn
    · simp [depositAll]
    · have hmod := Nat.mod_lt s.length w.bits_pos
      rw [segments_of_pos w s.length hn]
      generalize hm : min n (w.bits - s.length % w.bits) = m
      have hlen : (Bits.ofInt m x).length = m := Bits.length_ofInt m x
      have hne : Bits.ofInt m x ≠ [] := List.ne_nil_of_length_pos (by omega)
      -- the segment takes the `m` low bits of the number, the quotient is left for the next ones
      have hlow : x % 2 ^ m = Bits.toNat (Bits.ofInt m x) := by
        rw [Bits.toNat_ofInt, Bits.low_natCast]
      have hsplit : Bits.ofInt n x = Bits.ofInt m x ++ Bits.ofInt (n - m) (x / 2 ^ m : Nat) := by
        have h := Bits.ofInt_add m (n - m) x
        rw [Nat.add_sub_cancel' (by omega)] at h
        rw [h]
        norm_cast
      have hnext : s.length + m = (s ++ Bits.ofInt m x).length := by
        rw [List.length_append, hlen]
      rw [depositAll, hlow, deposit_toWords w.bits_pos hne (by omega), hnext,
        ih (n - m) (by omega), hsplit, List.append_assoc]

/-! ## Writers as destinations -/

variable {w : Width} {wr : Writer} {s : Bits}

/-- A raw write appends its bits to the run that the writer holds. -/
lemma holds_append (h : Holds w wr s) (x n : Nat) :
    Holds w (wr.append x n) (s ++ Bits.ofInt n x) := by
  refine ⟨h.wordSize_eq, ?_, ?_⟩
  · rw [append, h.bitLength_eq, List.length_append, Bits.length_ofInt]
  · have hstack : wr.stack = (Bits.toWords w.bits s).reverse := by
      rw [← h.words_eq, words, List.reverse_reverse]
    rw [words, append, hstack, h.wordSize_eq, h.bitLength_eq, depositAll_segments,
      List.reverse_reverse]

/-- The bytes of a writer are those of the run it holds, whatever the size of its words. -/
lemma bytes_of_holds (h : Holds w wr s) : wr.bytes = Bytes.ofBits s := by
  rw [bytes, h.wordSize_eq, h.words_eq, h.bitLength_eq, Bytes.take_ofWords_toWords]

/-- A writer is a faithful destination. -/
lemma faithful (w : Width) : BitSink.Faithful (Holds w) where
  writeBits {wr s} h value count := by
    refine BitSink.appends_check _ ?_
    intro n _
    refine ⟨wr.append (Bits.low n value) n, rfl, ?_⟩
    rw [← Bits.ofInt_low]
    exact holds_append h _ n
  bitLength h := h.bitLength_eq
  bytes h := bytes_of_holds h

lemma unpack_of_holds (h : Holds w wr s) :
    Bits.unpack w.bits (wr.words.map Int.ofNat) = Bits.pad w.bits s := by
  rw [h.words_eq, Bits.unpack_toWords w.bits_pos]

/-- The words of a writer hold the run as their first bits. -/
lemma contents_of_holds (h : Holds w wr s) : wr.contents = s := by
  rw [contents, h.wordSize_eq, unpack_of_holds h, h.bitLength_eq]
  exact List.take_left' rfl

lemma lt_of_mem_words (h : Holds w wr s) {x : Nat} (hx : x ∈ wr.words) : x < 2 ^ w.bits := by
  rw [h.words_eq] at hx
  exact Bits.lt_of_mem_toWords hx

lemma length_words_of_holds (h : Holds w wr s) :
    wr.words.length = wordsNeeded w.bits s.length := by
  rw [h.words_eq, Bits.length_toWords w.bits_pos]

/-- The text of a writer is that of the run it holds, completed to a whole word. -/
lemma padTo_of_holds (h : Holds w wr s) :
    BitText.padTo (BitText.ofBits s) w.bits = .ok wr.paddedText := by
  rw [BitText.padTo_ofBits w.bits_pos, paddedText, h.wordSize_eq, h.words_eq,
    BitText.ofWords_toWords w.bits_pos]

lemma holds_attempts (w : Width) (qs : List WriteRequest) :
    Holds w (WriteRequest.attempts qs (empty w)).2 (WriteRequest.streams qs) :=
  (WriteRequest.attempts_appends (faithful w) (holds_empty w) qs).2

/-- Further writes only append. -/
lemma contents_prefix_of_holds (h : Holds w wr s) (later : List WriteRequest) :
    wr.contents <+: (WriteRequest.attempts later wr).2.contents := by
  have hlater := (WriteRequest.attempts_appends (faithful w) h later).2
  rw [contents_of_holds h, contents_of_holds hlater]
  exact List.prefix_append s _

/-- **The contents of a writer.**  After any writes, each of which is answered as its stream
says, let `s` be the bits of those that succeeded.  The words are the buffer of the text of
`s`, so there are just as many as `s` needs, each of them fits its size and the bits behind
the last one are zero; the text of the writer is that of `s` completed to a whole word; and
whatever is written later, `s` stays in front. -/
theorem attempts_pack_streams (w : Width) (qs : List WriteRequest) :
    let wr := (WriteRequest.attempts qs (empty w)).2
    let s := WriteRequest.streams qs
    (WriteRequest.attempts qs (empty w)).1 = qs.map (fun q => q.stream.map fun _ => ()) ∧
      wr.bitLength = s.length ∧
      BitText.toBuffer (BitText.ofBits s) w.bits = .ok wr.words ∧
      wr.words.length = wordsNeeded w.bits s.length ∧
      (∀ x ∈ wr.words, x < 2 ^ w.bits) ∧
      Bits.unpack w.bits (wr.words.map Int.ofNat) =
        s ++ List.replicate (w.bits * wr.words.length - s.length) false ∧
      BitText.padTo (BitText.ofBits s) w.bits = .ok wr.paddedText ∧
      wr.contents = s ∧
      ∀ later, wr.contents <+: (WriteRequest.attempts later wr).2.contents := by
  intro wr s
  have h : Holds w wr s := holds_attempts w qs
  have hbuffer : BitText.toBuffer (BitText.ofBits s) w.bits = .ok wr.words := by
    rw [BitText.toBuffer_ofBits w.bits_pos, h.words_eq]
  have hfit : ∀ x ∈ wr.words, x < 2 ^ w.bits := fun x hx => lt_of_mem_words h hx
  have hzeros : Bits.unpack w.bits (wr.words.map Int.ofNat) =
      s ++ List.replicate (w.bits * wr.words.length - s.length) false := by
    rw [unpack_of_holds h, Bits.pad, length_words_of_holds h]
  refine ⟨(WriteRequest.attempts_appends (faithful w) (holds_empty w) qs).1, h.bitLength_eq,
    hbuffer, length_words_of_holds h, hfit, hzeros, padTo_of_holds h, contents_of_holds h, ?_⟩
  exact contents_prefix_of_holds h

end BitPack.Writer
