/-
# Folding and unfolding

Block zigzag splits the magnitude of a number into a block and a place inside the block and
puts the sign between the two.  A code is read back by the same split, so folding and
unfolding are inverse to each other for every exponent.  The code of a number fits `w` bits
exactly if its magnitude fits one bit less, as long as the exponent is below `w`.
-/
import BitPack.Zigzag
import Mathlib.Tactic.Lemma

namespace BitPack.Zigzag

/-- The sign of a number as the lowest bit of its block. -/
def signBit (v : Int) : Nat := if 0 ≤ v then 0 else 1

lemma signBit_le (v : Int) : signBit v ≤ 1 := by
  unfold signBit
  split <;> omega

/-- A number is made of its magnitude and its sign. -/
lemma eq_of_magnitude (v : Int) :
    v = if signBit v = 1 then -1 - (magnitude v : Int) else magnitude v := by
  unfold signBit magnitude
  split
  · rw [if_neg (by decide)]
    omega
  · rw [if_pos rfl]
    omega

lemma magnitude_nonneg_branch (m : Nat) : magnitude m = m ∧ signBit m = 0 := by
  simp [magnitude, signBit]

lemma magnitude_neg_branch (m : Nat) : magnitude (-1 - m) = m ∧ signBit (-1 - m) = 1 := by
  have h : ¬ (0 : Int) ≤ -1 - m := by omega
  rw [magnitude, signBit, if_neg h, if_neg h]
  omega

lemma magnitude_lt_iff {v : Int} {n : Nat} : magnitude v < 2 ^ n ↔ -2 ^ n ≤ v ∧ v < 2 ^ n := by
  have hp : ((2 ^ n : Nat) : Int) = 2 ^ n := by norm_cast
  unfold magnitude
  split <;> omega

section Split

variable (k : Nat) (v : Int)

/-- The block of a code: the block of the magnitude with the sign below it. -/
lemma fold_div : fold k v / 2 ^ k = 2 * (magnitude v / 2 ^ k) + signBit v := by
  have hlt := Nat.mod_lt (magnitude v) (Nat.two_pow_pos k)
  rw [fold, Nat.mul_comm, Nat.mul_add_div (Nat.two_pow_pos k), Nat.div_eq_of_lt hlt,
    Nat.add_zero, signBit]

/-- The place of a code inside its block is that of the magnitude. -/
lemma fold_mod : fold k v % 2 ^ k = magnitude v % 2 ^ k := by
  rw [fold, Nat.mul_comm, Nat.mul_add_mod, Nat.mod_mod]

/-- Unfolding gives the number back, whatever the exponent. -/
lemma unfold_fold : unfold k (fold k v) = v := by
  have hsign := signBit_le v
  have hblock : (2 * (magnitude v / 2 ^ k) + signBit v) / 2 = magnitude v / 2 ^ k := by omega
  have hbit : (2 * (magnitude v / 2 ^ k) + signBit v) % 2 = signBit v := by omega
  have hmag : magnitude v / 2 ^ k * 2 ^ k + magnitude v % 2 ^ k = magnitude v := by
    rw [Nat.mul_comm, Nat.div_add_mod]
  simp only [unfold, fold_div, fold_mod, hblock, hbit, hmag]
  exact (eq_of_magnitude v).symm

end Split

/-- The magnitude and the sign of an unfolded code. -/
lemma magnitude_unfold (k u : Nat) :
    magnitude (unfold k u) = u / 2 ^ k / 2 * 2 ^ k + u % 2 ^ k ∧
      signBit (unfold k u) = u / 2 ^ k % 2 := by
  unfold unfold
  dsimp only
  split
  · next h =>
    rw [h]
    exact magnitude_neg_branch _
  · next h =>
    rw [show u / 2 ^ k % 2 = 0 by omega]
    exact magnitude_nonneg_branch _

/-- Every number is the code of what it unfolds to. -/
lemma fold_unfold (k u : Nat) : fold k (unfold k u) = u := by
  obtain ⟨hm, hs⟩ := magnitude_unfold k u
  have hlt := Nat.mod_lt u (Nat.two_pow_pos k)
  have hdiv : (u / 2 ^ k / 2 * 2 ^ k + u % 2 ^ k) / 2 ^ k = u / 2 ^ k / 2 := by
    rw [Nat.mul_comm, Nat.mul_add_div (Nat.two_pow_pos k), Nat.div_eq_of_lt hlt, Nat.add_zero]
  have hmod : (u / 2 ^ k / 2 * 2 ^ k + u % 2 ^ k) % 2 ^ k = u % 2 ^ k := by
    rw [Nat.mul_comm, Nat.mul_add_mod, Nat.mod_mod]
  have hq : fold k (unfold k u) / 2 ^ k = u / 2 ^ k := by
    rw [fold_div, hm, hs, hdiv]
    omega
  have hr : fold k (unfold k u) % 2 ^ k = u % 2 ^ k := by rw [fold_mod, hm, hmod]
  rw [← Nat.div_add_mod (fold k (unfold k u)) (2 ^ k), hq, hr, Nat.div_add_mod]

/-- A code fits `w` bits exactly if the magnitude leaves one bit for the sign. -/
lemma fold_lt_iff {k w : Nat} (h : k < w) (v : Int) :
    fold k v < 2 ^ w ↔ magnitude v < 2 ^ (w - 1) := by
  obtain ⟨d, rfl⟩ := Nat.exists_eq_add_of_lt h
  have hsign := signBit_le v
  have hw : 2 ^ (k + d + 1) = 2 ^ d * 2 * 2 ^ k := by
    rw [Nat.add_assoc, Nat.add_comm k, Nat.pow_add, Nat.pow_succ]
  have hw' : 2 ^ (k + d + 1 - 1) = 2 ^ d * 2 ^ k := by
    rw [Nat.add_sub_cancel, Nat.add_comm k, Nat.pow_add]
  rw [hw, hw', ← Nat.div_lt_iff_lt_mul (Nat.two_pow_pos k),
    ← Nat.div_lt_iff_lt_mul (Nat.two_pow_pos k), fold_div]
  omega

/-- Only zero has the code zero. -/
lemma fold_eq_zero_iff {k : Nat} {v : Int} : fold k v = 0 ↔ v = 0 := by
  constructor
  · intro h
    rw [← unfold_fold k v, h]
    simp [unfold]
  · rintro rfl
    simp [fold, magnitude]

end BitPack.Zigzag
