/-
# Plain zigzag

Plain zigzag works on the bits of a two's complement word: the word is doubled, and all its bits are
inverted when the number is negative.  Shifting the word by 63 places with its sign gives what it
is inverted with, no bit or all of them.  So the code of a number is its magnitude with the sign
below it (`Zigzag.toNat_interleave`), down to the least number of 64 bits.  That is block zigzag
with blocks of one number, also in what is refused, and plain zigzag is one-to-one as block zigzag
is (`Zigzag.plain_agrees_blocks`).
-/
import BitPack.Proofs.BlockZigzag

namespace BitPack.Zigzag

variable {m : Nat} {v : Int}

/-! ## Words -/

section Words

variable {x : BitVec 64} (hx : x.msb = false)
include hx

lemma shiftRight_sign : x >>> 63 = 0#64 := by
  have hlt := BitVec.toNat_lt_of_msb_false hx
  refine BitVec.eq_of_toNat_eq ?_
  rw [BitVec.toNat_ushiftRight, Nat.shiftRight_eq_div_pow, Nat.div_eq_of_lt hlt]
  rfl

/-- A word without the sign is doubled. -/
lemma interleave_of_msb_false : interleave x = x <<< 1 := by
  rw [interleave, BitVec.sshiftRight_eq_of_msb_false hx, shiftRight_sign hx, BitVec.xor_zero]

/-- The complement of such a word is doubled and inverted. -/
lemma interleave_not : interleave (~~~x) = ~~~(~~~x <<< 1) := by
  have hneg : (~~~x).msb = true := by rw [BitVec.msb_not, hx]; rfl
  rw [interleave, BitVec.sshiftRight_eq_of_msb_true hneg, BitVec.not_not, shiftRight_sign hx]
  exact BitVec.xor_allOnes

end Words

lemma msb_ofNat_of_lt (hm : m < 2 ^ 63) : (BitVec.ofNat 64 m).msb = false := by
  rw [BitVec.msb_eq_false_iff_two_mul_lt, BitVec.toNat_ofNat]
  omega

/-- The word of a negative number is the complement of the word of its magnitude. -/
lemma ofInt_neg_branch (m : Nat) : BitVec.ofInt 64 (-1 - m) = ~~~BitVec.ofNat 64 m := by
  refine BitVec.eq_of_toNat_eq ?_
  rw [BitVec.toNat_ofInt, BitVec.toNat_not, BitVec.toNat_ofNat]
  omega

/-- The code of a number is its magnitude with the sign below it. -/
lemma toNat_interleave (hv : FitsSigned 64 v) :
    (interleave (BitVec.ofInt 64 v)).toNat = 2 * magnitude v + signBit v := by
  have hmag : magnitude v < 2 ^ 63 := fitsSigned_iff.mp hv
  have hmsb := msb_ofNat_of_lt hmag
  have hsplit := eq_of_magnitude v
  by_cases hsign : signBit v = 1
  · rw [if_pos hsign] at hsplit
    have hword : BitVec.ofInt 64 v = ~~~BitVec.ofNat 64 (magnitude v) := by
      rw [← ofInt_neg_branch, ← hsplit]
    rw [hword, interleave_not hmsb, hsign, BitVec.toNat_not, BitVec.toNat_shiftLeft,
      BitVec.toNat_not, BitVec.toNat_ofNat, Nat.shiftLeft_eq]
    omega
  · rw [if_neg hsign] at hsplit
    have hword : BitVec.ofInt 64 v = BitVec.ofNat 64 (magnitude v) := by
      rw [← BitVec.ofInt_natCast, ← hsplit]
    have hzero : signBit v = 0 := by
      have := signBit_le v
      omega
    rw [hword, interleave_of_msb_false hmsb, hzero, BitVec.toNat_shiftLeft, BitVec.toNat_ofNat,
      Nat.shiftLeft_eq]
    omega

/-! ## Blocks of one number -/

lemma fold_zero (v : Int) : fold 0 v = 2 * magnitude v + signBit v := by
  have hdiv := fold_div 0 v
  rwa [Nat.pow_zero, Nat.div_one, Nat.div_one] at hdiv

lemma unfold_zero (n : Nat) :
    unfold 0 n = if n % 2 = 1 then -1 - ((n / 2 : Nat) : Int) else (n / 2 : Nat) := by
  simp only [unfold, Nat.pow_zero, Nat.div_one, Nat.mul_one, Nat.mod_one, Nat.add_zero]

lemma checkExponent_zero : checkExponent 0 = .ok 0 := rfl

lemma checkSigned64_of_fitsSigned (hv : FitsSigned 64 v) : checkSigned64 v = .ok () := if_pos hv

lemma checkSigned64_of_not_fitsSigned (hv : ¬FitsSigned 64 v) :
    checkSigned64 v = .error (.notSigned64 v) :=
  if_neg hv

lemma encode_eq_encodeBlocks (v : Int) : encode v = encodeBlocks v 0 := by
  unfold encode encodeBlocks
  by_cases hv : FitsSigned 64 v
  · rw [checkSigned64_of_fitsSigned hv, checkExponent_zero, toNat_interleave hv, ← fold_zero]
    rfl
  · rw [checkSigned64_of_not_fitsSigned hv]
    rfl

lemma decode_eq_decodeBlocks (u : Int) : decode u = decodeBlocks u 0 := by
  unfold decode decodeBlocks
  rw [checkExponent_zero]
  refine bind_congr fun n => ?_
  show _ = (pure (unfold 0 n) : Except Error Int)
  rw [unfold_zero]

/-- **Plain zigzag is block zigzag with blocks of one number.**  On any number, however large, both
give the same code or are refused with the same error, which tells the number that is out of the
64-bit range; and so do the two ways back.  On the 64-bit ranges plain zigzag is one-to-one between
the signed and the unsigned numbers. -/
theorem plain_agrees_blocks :
    (∀ v : Int, encode v = encodeBlocks v 0 ∧
      (¬FitsSigned 64 v → encode v = .error (.notSigned64 v))) ∧
    (∀ u : Int, decode u = decodeBlocks u 0 ∧
      (¬(0 ≤ u ∧ u < 2 ^ 64) → decode u = .error (.notUnsigned64 u))) ∧
    (∀ v : Int, FitsSigned 64 v → ∃ n : Nat, encode v = .ok n ∧ n < 2 ^ 64 ∧ decode n = .ok v) ∧
    ∀ n : Nat, n < 2 ^ 64 → ∃ v, decode n = .ok v ∧ FitsSigned 64 v ∧ encode v = .ok n := by
  have honto : FoldsOnto 0 64 := foldsOnto_of_lt (by decide) (by decide)
  simp only [encode_eq_encodeBlocks, decode_eq_decodeBlocks, true_and]
  refine ⟨?_, ?_, fun v hv => honto.encode hv, fun n hn => honto.decode hn⟩
  · intro v hv
    rw [encodeBlocks, checkSigned64_of_not_fitsSigned hv]
    rfl
  · intro u hu
    rw [decodeBlocks, checkUnsigned64, if_neg hu]
    rfl

end BitPack.Zigzag
