/-
# Trailing zeros of a sequence

The field of zero has no set bit (`Params.fieldBits_eq_zero_iff`), so behind the last other
value nothing but zeros is ahead, and a reader that stops as soon as only zeros of the last
word are left cannot tell the values there from the zeros that complete the word.  It stops
in front of a value exactly if this value and all behind it are zeros that start in the last
word (`Params.onlyZeroesLeft_iff_trailingZeros`).  Decoding without a number of values hence
loses these zeros of a sequence and no other value (`decodeAll_encode`).
-/
import BitPack.Proofs.Sequences
import Mathlib.Order.Nat

namespace BitPack

/-- Where the last of the words for a number of bits starts; below zero if there is none. -/
def lastWordStart (n len : Nat) : Int := n * ((wordsNeeded n len : Int) - 1)

namespace Params

/-- Where the value of an index starts: behind the fields of all values in front of it. -/
def startOf (p : Params) (values : List Int) (i : Nat) : Nat :=
  ((values.take i).map fun v => p.chunking.size (p.code v)).sum

/-- From an index on, all values are zeros that start in the last word. -/
def TrailingZeros (p : Params) (w : Width) (values : List Int) (j : Nat) : Prop :=
  ∀ i (hi : i < values.length), j ≤ i →
    values[i] = 0 ∧ lastWordStart w.bits (p.startOf values values.length) ≤ p.startOf values i

instance (p : Params) (w : Width) (values : List Int) :
    DecidablePred (p.TrailingZeros w values) := fun j =>
  inferInstanceAs (Decidable (∀ i (_ : i < values.length), j ≤ i → _))

variable {p : Params} {w : Width} {values : List Int}

/-! ## Where values start -/

lemma sequenceBits_take_drop (p : Params) (values : List Int) (i : Nat) :
    p.sequenceBits (values.take i) ++ p.sequenceBits (values.drop i) = p.sequenceBits values := by
  rw [← sequenceBits_append, List.take_append_drop]

/-- A value starts where the bits of the values in front of it end. -/
lemma startOf_eq_length (p : Params) (values : List Int) (i : Nat) :
    p.startOf values i = (p.sequenceBits (values.take i)).length := by
  rw [startOf, sequenceBits, List.length_flatMap]
  congr 1
  refine List.map_congr_left ?_
  intro v _
  rw [fieldBits, Chunking.length_encode]

lemma startOf_length (p : Params) (values : List Int) :
    p.startOf values values.length = (p.sequenceBits values).length := by
  rw [startOf_eq_length, List.take_length]

lemma startOf_add_length_drop (p : Params) (values : List Int) (i : Nat) :
    p.startOf values i + (p.sequenceBits (values.drop i)).length =
      p.startOf values values.length := by
  rw [startOf_eq_length, startOf_length, ← List.length_append, sequenceBits_take_drop]

lemma startOf_mono (p : Params) (values : List Int) {i k : Nat} (h : i ≤ k) :
    p.startOf values i ≤ p.startOf values k := by
  rw [startOf_eq_length, startOf_eq_length, ← sequenceBits_take_drop p (values.take k) i,
    List.take_take, Nat.min_eq_left h, List.length_append]
  exact Nat.le_add_right _ _

lemma sequenceBits_eq_zero_iff (h : ∀ v ∈ values, p.InRange v) :
    (∀ b ∈ p.sequenceBits values, b = false) ↔ ∀ v ∈ values, v = 0 := by
  induction values with
  | nil => simp
  | cons v vs ih =>
    obtain ⟨hv, hvs⟩ := List.forall_mem_cons.mp h
    rw [sequenceBits_cons, List.forall_mem_append, fieldBits_eq_zero_iff hv, ih hvs,
      List.forall_mem_cons]

/-! ## Where the reader stops -/

lemma trailingZeros_length (p : Params) (w : Width) (values : List Int) :
    p.TrailingZeros w values values.length := by
  intro i hi hle
  exact absurd hi (Nat.not_lt.mpr hle)

/-- Zeros start in the last word from an index on if the first of them does. -/
lemma trailingZeros_iff {i : Nat} (hi : i ≤ values.length) :
    p.TrailingZeros w values i ↔
      lastWordStart w.bits (p.startOf values values.length) ≤ p.startOf values i ∧
        ∀ v ∈ values.drop i, v = 0 := by
  constructor
  · intro h
    constructor
    · rcases Nat.lt_or_eq_of_le hi with hlt | rfl
      · exact (h i hlt (Nat.le_refl i)).2
      · -- no value is left: the last word starts in front of the last bit
        have hlt := mul_wordsNeeded_lt w.bits_pos (p.startOf values values.length)
        rw [lastWordStart, Int.mul_sub]
        omega
    · intro v hv
      obtain ⟨k, hk, rfl⟩ := List.mem_iff_getElem.mp hv
      rw [List.length_drop] at hk
      rw [List.getElem_drop]
      exact (h (i + k) (by omega) (by omega)).1
  · rintro ⟨hstart, hzero⟩ k hk hik
    refine ⟨hzero _ ?_, Int.le_trans hstart (by exact_mod_cast startOf_mono p values hik)⟩
    rw [List.mem_iff_getElem]
    refine ⟨k - i, ?_, ?_⟩
    · rw [List.length_drop]
      omega
    · rw [List.getElem_drop]
      congr 1
      omega

/-- The zeros that complete the bits of a sequence to whole words. -/
def padding (p : Params) (w : Width) (values : List Int) : Bits :=
  List.replicate (w.bits * wordsNeeded w.bits (p.sequenceBits values).length -
    (p.sequenceBits values).length) false

lemma length_padding (p : Params) (w : Width) (values : List Int) :
    (p.padding w values).length =
      w.bits * wordsNeeded w.bits (p.startOf values values.length) -
        p.startOf values values.length := by
  rw [padding, List.length_replicate, startOf_length]

section Reading

variable {base r : Reader} (hfit : base.Fits) (hv : ∀ v ∈ values, p.InRange v)
include hfit hv

/-- In front of the value of an index only zeros are left exactly if it and all behind it are
zeros that start in the last word. -/
lemma onlyZeroesLeft_iff_trailingZeros {i : Nat} (hi : i ≤ values.length)
    (h : Reader.Ahead base r
      (p.sequenceBits (values.drop i) ++ p.padding base.wordSize values)) :
    r.onlyZeroesLeft = true ↔ p.TrailingZeros base.wordSize values i := by
  have hlen := startOf_add_length_drop p values i
  have hle := le_mul_wordsNeeded base.wordSize.bits_pos (p.startOf values values.length)
  have hdrop : ∀ v ∈ values.drop i, p.InRange v := by
    intro v hmem
    exact hv v (List.mem_of_mem_drop hmem)
  have hpad : ∀ b ∈ p.padding base.wordSize values, b = false := by
    intro b hb
    exact List.eq_of_mem_replicate hb
  rw [Reader.onlyZeroesLeft_iff hfit h, trailingZeros_iff hi, List.forall_mem_append,
    sequenceBits_eq_zero_iff hdrop, List.length_append, length_padding, lastWordStart,
    Int.mul_sub]
  constructor
  · rintro ⟨hword, hzero, -⟩
    refine ⟨?_, hzero⟩
    omega
  · rintro ⟨hstart, hzero⟩
    refine ⟨?_, hzero, hpad⟩
    omega

/-- A reader in front of the value of an index goes on up to the trailing zeros. -/
lemma result_decodeAllFrom {j : Nat} (hj : IsLeast {j | p.TrailingZeros base.wordSize values j} j)
    {i : Nat} (hij : i ≤ j) (h : Reader.Ahead base r
      (p.sequenceBits (values.drop i) ++ p.padding base.wordSize values)) :
    (decodeAllFrom p i r).result = .ok ((values.take j).drop i) := by
  have hjle : j ≤ values.length := hj.2 (trailingZeros_length p base.wordSize values)
  have hstop := onlyZeroesLeft_iff_trailingZeros hfit hv (Nat.le_trans hij hjle) h
  induction hd : j - i generalizing i r with
  | zero =>
    -- the reader is in front of the trailing zeros
    obtain rfl : i = j := by omega
    rw [result_decodeAllFrom_of_onlyZeroesLeft (hstop.mpr hj.1), List.drop_eq_nil_of_le]
    exact List.length_take_le i values
  | succ d ih =>
    -- some value from here on is not zero or starts in front of the last word
    have hlt : i < values.length := by omega
    have hgo : r.onlyZeroesLeft = false := by
      rw [← Bool.not_eq_true, hstop]
      intro hzeros
      have := hj.2 hzeros
      omega
    have hi : p.InRange values[i] := hv _ (List.getElem_mem hlt)
    rw [List.drop_eq_getElem_cons hlt, sequenceBits_cons, List.append_assoc] at h
    obtain ⟨r', hrun, h'⟩ := readField_fieldBits hfit hi h
    have hnext := onlyZeroesLeft_iff_trailingZeros hfit hv hlt h'
    have hlen : i < (values.take j).length := by
      rw [List.length_take]
      omega
    rw [result_decodeAllFrom_of_value hgo hrun, ih (by omega) h' hnext (by omega),
      List.drop_eq_getElem_cons hlen, List.getElem_take]
    rfl

end Reading

end Params

/-- **Decoding without a number of values.**  The encoding of values within the bounds is
decoded to all values up to the first one from which on there are only zeros that start in the
last word, as the decoding side cuts words. -/
theorem decodeAll_encode (p : Params) {values : List Int} (h : ∀ v ∈ values, p.InRange v)
    (w w' : Width) :
    ∃ wr j, (encodeToWriter p w values).result = .ok wr ∧
      (encode p w values).result = .ok wr.bytes ∧
      wr.bitLength = p.startOf values values.length ∧
      IsLeast {j | p.TrailingZeros w' values j} j ∧
      (decodeAll p w' wr.bytes).result = .ok (values.take j) := by
  obtain ⟨wr, hresult, hholds⟩ := encodeToWriter_eq_ok h w
  have hbytes := Writer.bytes_of_holds hholds
  have hj := Nat.isLeast_find ⟨values.length, Params.trailingZeros_length p w' values⟩
  refine ⟨wr, _, hresult, ?_, ?_, hj, ?_⟩
  · rw [encode_eq_ok h w, hbytes]
  · rw [hholds.bitLength_eq, Params.startOf_length]
  · have hahead := Reader.ahead_start (r := Reader.ofBytes w' wr.bytes) rfl
    rw [Reader.bits_ofBytes, hbytes, Bytes.toBits_ofBits,
      Bits.pad_pad w'.bits_pos (by decide) w'.eight_dvd_bits] at hahead
    rw [result_decodeAll, hbytes]
    exact Params.result_decodeAllFrom (Reader.fits_ofBytes _ _) h hj (Nat.zero_le _) hahead

/-- A zero between other values and zeros at the end, in words of 8 bits. -/
theorem decodeAll_encode_three_zeros :
    let p : Params := ⟨.w16, 4, false, 0, by decide, by decide⟩
    let values : List Int := [5, 0, 65535, 0, 0]
    (∀ v ∈ values, p.InRange v) ∧
      ∃ wr j, (encodeToWriter p .w64 values).result = .ok wr ∧
        (encode p .w64 values).result = .ok wr.bytes ∧
        wr.bitLength = p.startOf values values.length ∧
        IsLeast {j | p.TrailingZeros .w8 values j} j ∧
        (decodeAll p .w8 wr.bytes).result = .ok (values.take j) := by
  intro p values
  have hv : ∀ v ∈ values, p.InRange v := by decide
  exact ⟨hv, decodeAll_encode p hv .w64 .w8⟩

end BitPack
