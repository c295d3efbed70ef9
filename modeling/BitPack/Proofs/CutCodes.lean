/-
# Codes cut short

A run of bits may stop inside a code, and zeros may follow: those that complete the last word.
A zero in the place of a signal bit ends the field, so the chunk in which the cut lies is read
as the last one, its missing payload bits as zeros.  The main facts are

* `Chunking.decodeFrom_cut`: the number that is read is formed by the payload bits in front of
  the cut, if the zeros reach to the end of the chunk; otherwise nothing is read;
* `Chunking.decode_take_encode`: a code that is cut short is not read if nothing follows, so no
  code is the beginning of another one;
* `Chunking.forall_mem_drop_encodeFrom_iff`: the number that is read is the right one exactly if no
  set bit is behind the cut.
-/
import BitPack.Proofs.FaithfulSource

namespace BitPack.Chunking

/-- Where the chunk with the bit of index `n` of a code ends, its signal bit included, when the
code has `left` payload bits at most. -/
def chunkEnd (c : Chunking) (left n : Nat) : Nat :=
  n / (c.length + 1) * (c.length + 1) + min (left - n / (c.length + 1) * c.length) (c.length + 1)

variable {c : Chunking} {left value n : Nat}

lemma chunkEnd_of_le (h : n ≤ c.length) : c.chunkEnd left n = min left (c.length + 1) := by
  rw [chunkEnd, Nat.div_eq_of_lt (by omega), Nat.zero_mul, Nat.zero_mul, Nat.zero_add, Nat.sub_zero]

lemma chunkEnd_chunk (c : Chunking) (left n : Nat) :
    c.chunkEnd left (c.length + 1 + n) = c.length + 1 + c.chunkEnd (left - c.length) n := by
  have hdiv : (c.length + 1 + n) / (c.length + 1) = n / (c.length + 1) + 1 :=
    Nat.add_div_left n (Nat.succ_pos _)
  rw [chunkEnd, chunkEnd, hdiv, Nat.add_mul, Nat.add_mul, Nat.one_mul, Nat.one_mul, Nat.sub_sub,
    Nat.add_comm (_ * (c.length + 1)), Nat.add_assoc, Nat.add_comm (_ * c.length)]

/-! ## Where a cut lies -/

/-- A cut lies in the first chunk, or behind it and a set signal bit. -/
lemma cut_cases (h : n < (c.encodeFrom left value).length) :
    (n ≤ c.length ∧ n < left) ∨
      ∃ k, n = c.length + 1 + k ∧ ¬left ≤ c.length ∧ ¬value < 2 ^ c.length ∧
        k < (c.encodeFrom (left - c.length) (value / 2 ^ c.length)).length := by
  by_cases hlast : left ≤ c.length
  · rw [encodeFrom_last hlast, Bits.length_ofInt] at h
    exact .inl ⟨by omega, h⟩
  · by_cases hn : n ≤ c.length
    · exact .inl ⟨hn, by omega⟩
    · by_cases hlt : value < 2 ^ c.length
      · rw [encodeFrom_stop hlast hlt, List.length_append, Bits.length_ofInt,
          List.length_singleton] at h
        omega
      · rw [encodeFrom_more hlast hlt, List.length_append, Bits.length_ofInt,
          List.length_cons] at h
        exact .inr ⟨n - (c.length + 1), by omega, hlast, hlt, by omega⟩

/-- In front of the end of the first chunk stand the low bits of the number. -/
lemma take_encodeFrom (hn : n ≤ c.length) (hleft : n ≤ left) :
    (c.encodeFrom left value).take n = Bits.ofInt n value := by
  have hlen : n ≤ (Bits.ofInt c.length value).length := by rwa [Bits.length_ofInt]
  rw [encodeFrom]
  split
  · exact Bits.take_ofInt hleft value
  · split <;> rw [List.take_append_of_le_length hlen, Bits.take_ofInt hn]

lemma take_encodeFrom_more (h : ¬left ≤ c.length) (hv : ¬value < 2 ^ c.length) (k : Nat) :
    (c.encodeFrom left value).take (c.length + 1 + k) = Bits.ofInt c.length value ++
      true :: (c.encodeFrom (left - c.length) (value / 2 ^ c.length)).take k := by
  have hlen := Bits.length_ofInt c.length value
  rw [encodeFrom_more h hv, List.take_append, hlen, List.take_of_length_le (by omega),
    Nat.add_assoc, Nat.add_sub_cancel_left, Nat.add_comm 1, List.take_succ_cons]

lemma drop_encodeFrom_more (h : ¬left ≤ c.length) (hv : ¬value < 2 ^ c.length) (k : Nat) :
    (c.encodeFrom left value).drop (c.length + 1 + k) =
      (c.encodeFrom (left - c.length) (value / 2 ^ c.length)).drop k := by
  have hlen := Bits.length_ofInt c.length value
  rw [encodeFrom_more h hv, List.drop_append, hlen, List.drop_of_length_le (by omega),
    Nat.add_assoc, Nat.add_sub_cancel_left, Nat.add_comm 1, List.drop_succ_cons, List.nil_append]

lemma lt_chunkEnd (h : n < (c.encodeFrom left value).length) : n < c.chunkEnd left n := by
  have hc := c.length_pos
  induction left using Nat.strongRecOn generalizing value n with
  | _ left ih =>
    rcases cut_cases h with ⟨hn, hleft⟩ | ⟨k, rfl, hmore, -, hk⟩
    · rw [chunkEnd_of_le hn]
      omega
    · rw [chunkEnd_chunk]
      exact Nat.add_lt_add_left (ih _ (by omega) hk) _

/-! ## What is read -/

/-- The low bits of a number with zeros behind them, up to the bit of index `m`. -/
def lowPadded (n m value : Nat) : Bits := Bits.ofInt n value ++ List.replicate (m - n) false

lemma length_lowPadded {m : Nat} (h : n ≤ m) : (lowPadded n m value).length = m := by
  rw [lowPadded, List.length_append, Bits.length_ofInt, List.length_replicate]
  omega

lemma toNat_lowPadded (n m value : Nat) : Bits.toNat (lowPadded n m value) = value % 2 ^ n := by
  rw [lowPadded, Bits.toNat_append_replicate_false, Bits.toNat_ofInt, Bits.low_natCast]

/-- Zeros behind the bits of a number fill them up first. -/
lemma ofInt_append_zeros {m z : Nat} (hnm : n ≤ m) (hm : m ≤ n + z) :
    Bits.ofInt n value ++ List.replicate z false =
      lowPadded n m value ++ List.replicate (n + z - m) false := by
  rw [lowPadded, List.append_assoc, List.replicate_append_replicate]
  congr 2
  omega

/-- Payload bits of a chunk that is not complete are read as if zeros were in the place of the
missing ones. -/
lemma decodeFrom_ofInt_append_zeros (hn : n ≤ c.length) (hleft : n < left) (z : Nat) :
    c.decodeFrom left (Bits.ofInt n value ++ List.replicate z false) =
      if min left (c.length + 1) ≤ n + z then
        some (value % 2 ^ n, List.replicate (n + z - min left (c.length + 1)) false)
      else none := by
  have hlen : (Bits.ofInt n value ++ List.replicate z false).length = n + z := by
    rw [List.length_append, Bits.length_ofInt, List.length_replicate]
  by_cases hlast : left ≤ c.length
  · -- the last chunk, which has no signal bit
    rw [decodeFrom_last hlast, hlen, Nat.min_eq_left (by omega)]
    split
    · next h =>
      have hpadded : (lowPadded n left value).length = left :=
        length_lowPadded (Nat.le_of_lt hleft)
      rw [ofInt_append_zeros (Nat.le_of_lt hleft) h, List.take_left' hpadded,
        List.drop_left' hpadded, toNat_lowPadded]
    · rfl
  · rw [Nat.min_eq_right (by omega)]
    split
    · next h =>
      -- the first zero behind the chunk is its signal bit
      have hsignal : n + z - c.length = n + z - (c.length + 1) + 1 := by omega
      rw [ofInt_append_zeros hn (by omega), hsignal, List.replicate_succ,
        decodeFrom_chunk hlast (length_lowPadded hn), toNat_lowPadded]
      rfl
    · rw [decodeFrom, if_neg hlast, List.drop_of_length_le (by omega)]

/-- A code that is cut short and followed by zeros is read up to the end of the chunk that is
cut, and what is read are the payload bits in front of the cut. -/
lemma decodeFrom_cut (h : n < (c.encodeFrom left value).length) (z : Nat) :
    c.decodeFrom left ((c.encodeFrom left value).take n ++ List.replicate z false) =
      if c.chunkEnd left n ≤ n + z then
        some (value % 2 ^ c.payloadOf n, List.replicate (n + z - c.chunkEnd left n) false)
      else none := by
  have hc := c.length_pos
  induction left using Nat.strongRecOn generalizing value n with
  | _ left ih =>
    rcases cut_cases h with ⟨hn, hleft⟩ | ⟨k, rfl, hmore, hlt, hk⟩
    · rw [take_encodeFrom hn (Nat.le_of_lt hleft), chunkEnd_of_le hn, payloadOf_of_le hn,
        decodeFrom_ofInt_append_zeros hn hleft]
    · -- the chunks behind the first one are cut behind `k` bits
      have hnum : Bits.low c.length value +
          2 ^ c.length * (value / 2 ^ c.length % 2 ^ c.payloadOf k) =
            value % 2 ^ (c.length + c.payloadOf k) := by
        rw [Bits.low_natCast, Nat.pow_add, Nat.mod_mul]
      rw [take_encodeFrom_more hmore hlt, List.append_assoc, List.cons_append,
        decodeFrom_chunk hmore (Bits.length_ofInt c.length value), if_pos rfl,
        ih _ (by omega) hk, chunkEnd_chunk, payloadOf_chunk, Nat.add_assoc (c.length + 1) k z,
        Nat.add_sub_add_left, ← hnum]
      simp only [Nat.add_le_add_iff_left]
      split
      · rw [Option.map_some, Bits.toNat_ofInt]
      · rfl

/-! ## What is lost -/

/-- Behind its first `n` bits a number has no set bit exactly if it fits these. -/
lemma forall_mem_drop_ofInt_iff {m : Nat} (hn : n ≤ m) (hv : value < 2 ^ m) :
    (∀ b ∈ (Bits.ofInt m value).drop n, b = false) ↔ value < 2 ^ n := by
  have hdiv : (value : Int) / 2 ^ n = (value / 2 ^ n : Nat) := by norm_cast
  have hlt : value / 2 ^ n < 2 ^ (m - n) := by
    rwa [Nat.div_lt_iff_lt_mul (Nat.two_pow_pos n), ← Nat.pow_add, Nat.sub_add_cancel hn]
  rw [Bits.drop_ofInt hn, hdiv, forall_mem_ofInt_eq_false_iff hlt,
    Nat.div_eq_zero_iff_lt (Nat.two_pow_pos n)]

/-- No set bit is behind the cut exactly if the payload bits in front of it form the number. -/
lemma forall_mem_drop_encodeFrom_iff (hv : value < 2 ^ left)
    (h : n < (c.encodeFrom left value).length) :
    (∀ b ∈ (c.encodeFrom left value).drop n, b = false) ↔ value < 2 ^ c.payloadOf n := by
  fun_induction encodeFrom c left value generalizing n with
  | case1 left value hlast =>
    rw [Bits.length_ofInt] at h
    rw [payloadOf_of_le (by omega), forall_mem_drop_ofInt_iff (Nat.le_of_lt h) hv]
  | case2 left value hmore hlt =>
    rw [List.length_append, Bits.length_ofInt, List.length_singleton] at h
    have hn : n ≤ c.length := by omega
    rw [List.drop_append_of_le_length (by rwa [Bits.length_ofInt]), List.forall_mem_append,
      forall_mem_drop_ofInt_iff hn hlt, payloadOf_of_le hn]
    simp
  | case3 left value hmore hlt ih =>
    by_cases hn : n ≤ c.length
    · -- the signal bit behind this chunk is set
      rw [List.drop_append_of_le_length (by rwa [Bits.length_ofInt]), payloadOf_of_le hn]
      constructor
      · intro hall
        exact absurd (hall true (by simp)) (by decide)
      · intro hsmall
        exact absurd (Nat.lt_of_lt_of_le hsmall (Nat.pow_le_pow_right (by decide) hn)) hlt
    · obtain ⟨k, rfl⟩ := Nat.exists_eq_add_of_lt (Nat.lt_of_not_le hn)
      rw [Nat.add_right_comm] at h ⊢
      rw [List.length_append, Bits.length_ofInt, List.length_cons] at h
      rw [← encodeFrom_more hmore hlt, drop_encodeFrom_more hmore hlt,
        ih (div_lt_of_lt hmore hv) (by omega), payloadOf_chunk, Nat.pow_add,
        Nat.div_lt_iff_lt_mul (Nat.two_pow_pos _), Nat.mul_comm]

/-! ## Whole codes -/

/-- A code that is cut short is not read. -/
lemma decode_take_encode (h : n < (c.encode value).length) :
    c.decode ((c.encode value).take n) = none := by
  have hcut := decodeFrom_cut h 0
  rwa [List.replicate_zero, List.append_nil, Nat.add_zero,
    if_neg (Nat.not_le.mpr (lt_chunkEnd h))] at hcut

/-- The code of zero is a single chunk. -/
lemma chunkEnd_zero (c : Chunking) : c.chunkEnd c.width.bits 0 = c.size 0 := by
  rw [chunkEnd_of_le (Nat.zero_le _), size, sizeFrom, Nat.zero_shiftRight]
  split
  · exact Nat.min_eq_left (by omega)
  · exact Nat.min_eq_right (by omega)

/-- Zeros are read as zero, as long as they fill its code. -/
lemma decode_zeros (c : Chunking) (z : Nat) :
    c.decode (List.replicate z false) =
      if c.size 0 ≤ z then some (0, List.replicate (z - c.size 0) false) else none := by
  have hpos : 0 < (c.encode 0).length := by
    rw [length_encode]
    exact c.size_pos 0
  have hcut := decodeFrom_cut hpos z
  rwa [List.take_zero, List.nil_append, Nat.zero_add, Nat.zero_mod, chunkEnd_zero] at hcut

/-- Off a run without a set bit only zero is read, and it leaves such a run. -/
lemma eq_zero_of_decode {t r : Bits} {v : Nat} (ht : ∀ b ∈ t, b = false)
    (hd : c.decode t = some (v, r)) : v = 0 ∧ ∀ b ∈ r, b = false := by
  obtain ⟨z, rfl⟩ : ∃ z, t = List.replicate z false :=
    ⟨t.length, List.eq_replicate_iff.mpr ⟨rfl, ht⟩⟩
  rw [decode_zeros] at hd
  split at hd
  · obtain ⟨rfl, rfl⟩ := by simpa using hd
    exact ⟨rfl, fun b hb => List.eq_of_mem_replicate hb⟩
  · simp at hd

end BitPack.Chunking
