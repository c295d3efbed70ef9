/-
# What the checks let pass

Every operation checks its arguments before it touches a stream.  This file says of each
check which arguments pass it, and that what has passed the outer checks of a signed field
passes those of block zigzag and of the unsigned field as well.  What does not pass is an error
of the arguments (`FailsAs`).
-/
import BitPack.Chunking
import BitPack.Sink
import BitPack.Proofs.Zigzag
import Mathlib.Tactic.SplitIfs

namespace BitPack

/-- A check that passes in front of a computation that succeeds. -/
lemma Except.bind_eq_ok_iff {ε α β : Type} {x : Except ε α} {f : α → Except ε β} {b : β} :
    x >>= f = .ok b ↔ ∃ a, x = .ok a ∧ f a = .ok b := by
  cases x with
  | error e =>
    constructor
    · intro h
      cases h
    · rintro ⟨a, ha, -⟩
      cases ha
  | ok a =>
    constructor
    · intro h
      exact ⟨a, rfl, h⟩
    · rintro ⟨a', ha, h⟩
      cases ha
      exact h

lemma Except.exists_bind_eq_ok_iff {ε α β : Type} {x : Except ε α} {f : α → Except ε β} :
    (∃ b, x >>= f = .ok b) ↔ ∃ a, x = .ok a ∧ ∃ b, f a = .ok b := by
  simp only [Except.bind_eq_ok_iff]
  exact ⟨fun ⟨b, a, ha, hb⟩ => ⟨a, ha, b, hb⟩, fun ⟨a, ha, b, hb⟩ => ⟨b, a, ha, hb⟩⟩

lemma Except.map_eq_ok_iff {ε α β : Type} {x : Except ε α} {f : α → β} {b : β} :
    x.map f = .ok b ↔ ∃ a, x = .ok a ∧ f a = b := by
  cases x <;> simp [Except.map]

lemma Except.map_eq_error_iff {ε α β : Type} {x : Except ε α} {f : α → β} {e : ε} :
    x.map f = .error e ↔ x = .error e := by
  cases x <;> simp [Except.map]

lemma checkCount_natCast {limit : Int} {n : Nat} (h : n ≤ limit) :
    checkCount limit n = .ok n :=
  checkCount_eq_ok_iff.mpr ⟨rfl, h⟩

/-- A number of bits within the limit of one raw operation. -/
lemma checkCount_maxRawBits {n : Nat} (h : n ≤ 64) : checkCount maxRawBits n = .ok n :=
  checkCount_natCast (by rw [maxRawBits]; omega)

lemma checkUnsigned_eq_ok_iff {value : Int} {w n : Nat} :
    checkUnsigned value w = .ok n ↔ value = n ∧ n < 2 ^ w := by
  have hw : ¬(w : Int) < 0 := by omega
  unfold checkUnsigned
  rw [if_neg hw, Int.toNat_natCast]
  by_cases hneg : value < 0
  · -- no number of bits is equal to a negative value
    rw [if_pos hneg]
    simp only [reduceCtorEq, false_iff]
    omega
  · obtain ⟨m, rfl⟩ := Int.eq_ofNat_of_zero_le (Int.not_lt.mp hneg)
    have hshift : (m : Int) >>> w ≠ 0 ↔ ¬m < 2 ^ w := by
      rw [← Int.natCast_shiftRight, Nat.shiftRight_eq_div_pow,
        ← Nat.div_eq_zero_iff_lt (Nat.two_pow_pos w)]
      omega
    rw [if_neg hneg]
    by_cases hm : m < 2 ^ w
    · rw [if_neg (fun h => hshift.mp h hm), Int.toNat_natCast, Except.ok.injEq]
      omega
    · rw [if_pos (hshift.mpr hm)]
      simp only [reduceCtorEq, false_iff]
      omega

lemma checkSigned_eq_ok_iff {value : Int} {w : Nat} (hw : 0 < w) :
    checkSigned value w = .ok () ↔ Zigzag.magnitude value < 2 ^ (w - 1) := by
  have h1 : ¬(w : Int) < 1 := by omega
  rw [Zigzag.magnitude_lt_iff]
  unfold checkSigned
  rw [if_neg h1, Int.toNat_natCast]
  dsimp only
  split
  · next h =>
    rw [signedRange] at h
    simp only [true_iff]
    omega
  · next h =>
    rw [signedRange] at h
    simp only [reduceCtorEq, false_iff]
    omega

lemma checkZigzagExponent_eq_ok_iff {exponent : Int} {w k : Nat} :
    checkZigzagExponent exponent w = .ok k ↔ exponent = k ∧ k < w := by
  unfold checkZigzagExponent
  split
  · rw [Except.ok.injEq]
    omega
  · simp only [reduceCtorEq, false_iff]
    omega

/-! ## Arguments within bounds -/

lemma exists_checkCount_eq_ok_iff {limit count : Int} :
    (∃ n, checkCount limit count = .ok n) ↔ 0 ≤ count ∧ count ≤ limit := by
  simp only [checkCount_eq_ok_iff]
  constructor
  · rintro ⟨n, rfl, hn⟩
    omega
  · rintro ⟨h0, hle⟩
    exact ⟨count.toNat, Int.toNat_of_nonneg h0, hle⟩

lemma exists_checkZigzagExponent_eq_ok_iff {exponent width : Int} :
    (∃ k, checkZigzagExponent exponent width = .ok k) ↔ 0 ≤ exponent ∧ exponent < width := by
  unfold checkZigzagExponent
  split_ifs with h
  · simp [h]
  · simp [h]

lemma Width.exists_eq_bits_iff {n : Int} :
    (∃ w : Width, n = w.bits) ↔ n = 8 ∨ n = 16 ∨ n = 32 ∨ n = 64 := by
  constructor
  · rintro ⟨w, rfl⟩
    cases w <;> decide
  · rintro (rfl | rfl | rfl | rfl)
    · exact ⟨.w8, rfl⟩
    · exact ⟨.w16, rfl⟩
    · exact ⟨.w32, rfl⟩
    · exact ⟨.w64, rfl⟩

lemma Chunking.exists_ofInts_eq_ok_iff {length width : Int} :
    (∃ c, ofInts length width = .ok c) ↔
      (width = 8 ∨ width = 16 ∨ width = 32 ∨ width = 64) ∧ 1 ≤ length := by
  simp only [ofInts_eq_ok_iff, ← Width.exists_eq_bits_iff]
  constructor
  · rintro ⟨c, hwidth, hlength⟩
    have hc := c.length_pos
    exact ⟨⟨c.width, hwidth⟩, by omega⟩
  · rintro ⟨⟨w, hwidth⟩, hlength⟩
    exact ⟨⟨w, length.toNat, by omega⟩, hwidth, (Int.toNat_of_nonneg (by omega)).symm⟩

namespace Zigzag

/-- A number of a signed field is in the 64-bit range of block zigzag. -/
lemma encodeBlocks_eq_ok {w : Width} {k : Nat} (hk : k < w.bits) {v : Int}
    (hv : magnitude v < 2 ^ (w.bits - 1)) : encodeBlocks v k = .ok (fold k v) := by
  have hw := w.bits_le
  have h63 : magnitude v < 2 ^ 63 :=
    Nat.lt_of_lt_of_le hv (Nat.pow_le_pow_right (by decide) (by omega))
  have hs : checkSigned64 v = .ok () := if_pos (magnitude_lt_iff.mp h63)
  have he : checkExponent k = .ok k := if_pos (by omega)
  rw [encodeBlocks, hs, he]
  rfl

/-- A code that fits a field is in the 64-bit range of block zigzag. -/
lemma decodeBlocks_eq_ok {w : Width} {k : Nat} (hk : k < w.bits) {u : Nat}
    (hu : u < 2 ^ w.bits) : decodeBlocks u k = .ok (unfold k u) := by
  have hw := w.bits_le
  have h64 : u < 2 ^ 64 := Nat.lt_of_lt_of_le hu (Nat.pow_le_pow_right (by decide) hw)
  have hs : checkUnsigned64 u = .ok u := if_pos (by omega)
  have he : checkExponent k = .ok k := if_pos (by omega)
  rw [decodeBlocks, hs, he]
  rfl

end Zigzag

/-! ## Failures about one subject -/

/-- A computation fails, if it does, for a cause that is about the given subject. -/
def FailsAs {α : Type} (x : Except Error α) (k : Error.Kind) : Prop :=
  ∀ e, x = .error e → e.subject = k

section FailsAs

variable {α β : Type} {x : Except Error α} {f : α → Except Error β} {k : Error.Kind}

lemma failsAs_ok (a : α) : FailsAs (.ok a) k := by
  rintro e ⟨⟩

lemma failsAs_error {e : Error} (h : e.subject = k) : FailsAs (.error e : Except Error α) k := by
  rintro _ ⟨⟩
  exact h

lemma failsAs_bind (hx : FailsAs x k) (hf : ∀ a, FailsAs (f a) k) : FailsAs (x >>= f) k := by
  rcases x with e | a
  · exact failsAs_error (hx e rfl)
  · exact hf a

end FailsAs

lemma failsAs_checkCount (limit count : Int) : FailsAs (checkCount limit count) .contract := by
  unfold checkCount
  split_ifs
  · exact failsAs_ok _
  · exact failsAs_error rfl

lemma failsAs_ofInts (length width : Int) :
    FailsAs (Chunking.ofInts length width) .contract := by
  unfold Chunking.ofInts
  split
  · exact failsAs_error rfl
  · split
    · exact failsAs_ok _
    · exact failsAs_error rfl

lemma failsAs_checkZigzagExponent (exponent width : Int) :
    FailsAs (checkZigzagExponent exponent width) .contract := by
  unfold checkZigzagExponent
  split_ifs
  · exact failsAs_ok _
  · exact failsAs_error rfl

lemma failsAs_checkUnsigned (value width : Int) :
    FailsAs (checkUnsigned value width) .contract := by
  unfold checkUnsigned
  split_ifs
  · exact failsAs_error rfl
  · exact failsAs_error rfl
  · exact failsAs_error rfl
  · exact failsAs_ok _

lemma failsAs_encodeBlocks (v k : Int) : FailsAs (Zigzag.encodeBlocks v k) .contract := by
  refine failsAs_bind ?_ fun _ => failsAs_bind ?_ fun _ => failsAs_ok _
  · unfold Zigzag.checkSigned64
    split_ifs
    · exact failsAs_ok _
    · exact failsAs_error rfl
  · unfold Zigzag.checkExponent
    split_ifs
    · exact failsAs_ok _
    · exact failsAs_error rfl

end BitPack
