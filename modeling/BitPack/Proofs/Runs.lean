/-
# Cutting and joining runs of bits

The low bits of a number can be taken in one go or in parts: the part above the first `m`
bits is the low part of the quotient by `2 ^ m`.  Runs of the same length that stand for the
same number are equal, and a run stands for zero exactly if no bit of it is set.
-/
import BitPack.Bits
import Mathlib.Tactic.Lemma

namespace BitPack.Bits

/-! ## Numbers as runs -/

lemma ofInt_add (m n : Nat) (x : Int) :
    ofInt (m + n) x = ofInt m x ++ ofInt n (x / 2 ^ m) := by
  induction m generalizing x with
  | zero => simp
  | succ m ih =>
    -- the first bit is the remainder by two, the others are those of the quotient
    have hq : x / 2 / 2 ^ m = x / 2 ^ (m + 1) := by
      rw [Int.ediv_ediv_of_nonneg (by decide), Int.pow_succ, Int.mul_comm]
    rw [Nat.succ_add, ofInt, ih, hq, ofInt, List.cons_append]

lemma take_ofInt {k n : Nat} (h : k ≤ n) (x : Int) : (ofInt n x).take k = ofInt k x := by
  obtain ⟨m, rfl⟩ := Nat.exists_eq_add_of_le h
  rw [ofInt_add, List.take_left' (length_ofInt k x)]

lemma drop_ofInt {k n : Nat} (h : k ≤ n) (x : Int) :
    (ofInt n x).drop k = ofInt (n - k) (x / 2 ^ k) := by
  obtain ⟨m, rfl⟩ := Nat.exists_eq_add_of_le h
  rw [ofInt_add, List.drop_left' (length_ofInt k x), Nat.add_sub_cancel_left]

/-- The bits of a run are the binary digits of its number. -/
lemma getElem?_ofInt_natCast (n x i : Nat) :
    (ofInt n x)[i]? = if i < n then some (x.testBit i) else none := by
  induction n generalizing x i with
  | zero => simp
  | succ n ih =>
    cases i with
    | zero =>
      have hbit : decide ((x : Int) % 2 = 1) = decide (x % 2 = 1) := by
        rw [decide_eq_decide]
        omega
      rw [ofInt, List.getElem?_cons_zero, if_pos n.succ_pos, hbit, Nat.testBit_zero]
    | succ i =>
      have hdiv : (x : Int) / 2 = (x / 2 : Nat) := by norm_cast
      rw [ofInt, List.getElem?_cons_succ, hdiv, ih, Nat.testBit_succ]
      simp only [Nat.add_lt_add_iff_right]

/-! ## Runs as numbers -/

lemma toNat_inj {s t : Bits} (hlen : s.length = t.length) (h : toNat s = toNat t) : s = t := by
  rw [← ofInt_toNat s, ← ofInt_toNat t, hlen, h]

/-- Only the low `n` bits of a number matter for its run of `n` bits. -/
lemma ofInt_eq_iff {n : Nat} {x y : Int} : ofInt n x = ofInt n y ↔ low n x = low n y := by
  constructor
  · intro h
    rw [← toNat_ofInt, h, toNat_ofInt]
  · intro h
    refine toNat_inj (by simp) ?_
    rw [toNat_ofInt, toNat_ofInt, h]

lemma low_natCast (n x : Nat) : low n x = x % 2 ^ n := by
  apply Int.ofNat_inj.mp
  rw [coe_low]
  norm_cast

lemma low_of_lt {n x : Nat} (h : x < 2 ^ n) : low n x = x := by
  rw [low_natCast, Nat.mod_eq_of_lt h]

@[simp] lemma ofInt_low (n : Nat) (x : Int) : ofInt n (low n x) = ofInt n x :=
  ofInt_eq_iff.mpr (low_of_lt (low_lt n x))

lemma toNat_ofInt_of_lt {n x : Nat} (h : x < 2 ^ n) : toNat (ofInt n x) = x := by
  rw [toNat_ofInt, low_of_lt h]

lemma toNat_take_lt (s : Bits) (n : Nat) : toNat (s.take n) < 2 ^ n :=
  Nat.lt_of_lt_of_le (toNat_lt _)
    (Nat.pow_le_pow_right (by decide) (List.length_take_le n s))

/-- A number below `2 ^ k` and one below `2 ^ l` above it. -/
lemma add_mul_two_pow_lt {m n k l : Nat} (hm : m < 2 ^ k) (hn : n < 2 ^ l) :
    m + n * 2 ^ k < 2 ^ (k + l) :=
  calc m + n * 2 ^ k < 2 ^ k + n * 2 ^ k := Nat.add_lt_add_right hm _
    _ = (n + 1) * 2 ^ k := by rw [Nat.add_comm, Nat.succ_mul]
    _ ≤ 2 ^ l * 2 ^ k := Nat.mul_le_mul_right _ hn
    _ = 2 ^ (k + l) := by rw [Nat.add_comm, Nat.pow_add]

/-- A run stands for zero exactly if none of its bits is set. -/
lemma toNat_eq_zero_iff {s : Bits} : toNat s = 0 ↔ ∀ b ∈ s, b = false := by
  induction s with
  | nil => simp
  | cons b s ih =>
    rw [toNat_cons, List.forall_mem_cons, ← ih]
    cases b with
    | false =>
      simp only [Bool.toNat_false, true_and]
      omega
    | true =>
      simp only [Bool.toNat_true, Bool.true_eq_false, false_and, iff_false]
      omega

@[simp] lemma toNat_replicate_false (n : Nat) : toNat (List.replicate n false) = 0 :=
  toNat_eq_zero_iff.mpr fun _ h => List.eq_of_mem_replicate h

@[simp] lemma toNat_append_replicate_false (s : Bits) (n : Nat) :
    toNat (s ++ List.replicate n false) = toNat s := by
  rw [toNat_append, toNat_replicate_false, Nat.mul_zero, Nat.add_zero]

end BitPack.Bits
