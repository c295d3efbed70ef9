/-
# Integers written in decimal

An integer in decimal is a run of ASCII digits, behind a hyphen when it is negative.  Reading is
more lenient, but a run of digits is read digit by digit (`Numeral.digits?_of_isDigit`) and nothing
of it is blank, so every integer is read back from its text (`Numeral.toInt?_toString`), unless it
has too many digits.
-/
import BitPack.Text.Numeral
import Mathlib.Tactic.Lemma

namespace BitPack.Text

/-! ## ASCII digits -/

section Digit

variable {c : Char}

lemma toNat_of_isDigit (h : c.isDigit) : 48 ≤ c.toNat ∧ c.toNat ≤ 57 := by
  simpa [Char.isDigit, UInt32.le_iff_toNat_le] using h

lemma digitValue?_of_isDigit (h : c.isDigit) : digitValue? c = some (c.toNat - '0'.toNat) := by
  obtain ⟨hlow, hhigh⟩ := toNat_of_isDigit h
  rw [digitValue?, digitZeros, List.find?_cons_of_pos (by simp [hlow, hhigh])]
  rfl

lemma isBlank_of_isDigit (h : c.isDigit) : isBlank c = false := by
  obtain ⟨hlow, hhigh⟩ := toNat_of_isDigit h
  simp only [isBlank, Bool.or_eq_false_iff, Bool.and_eq_false_iff, decide_eq_false_iff_not,
    beq_eq_false_iff_ne]
  omega

end Digit

/-- A text without a blank is not trimmed. -/
lemma trim_of_not_isBlank {s : List Char} (h : ∀ c ∈ s, isBlank c = false) : trim s = s := by
  have hdrop : ∀ t : List Char, (∀ c ∈ t, isBlank c = false) → t.dropWhile isBlank = t := by
    intro t ht
    cases t with
    | nil => rfl
    | cons c t => rw [List.dropWhile_cons_of_neg (by simp [ht c])]
  rw [trim, hdrop s h, hdrop s.reverse (by simpa using h), List.reverse_reverse]

namespace Numeral

/-! ## Reading digits -/

/-- A run of ASCII digits is read digit by digit. -/
lemma digits?_of_isDigit {s : List Char} (hs : s ≠ []) (h : ∀ c ∈ s, c.isDigit) :
    digits? s = some (s.map fun c => c.toNat - '0'.toNat) := by
  fun_induction digits? s with
  | case1 => exact absurd rfl hs
  | case2 c => simp [digitValue?_of_isDigit (h c (by simp))]
  | case3 c s ih => exact absurd (h '_' (by simp)) (by decide)
  | case4 c s hone hscore ih =>
    obtain ⟨hc, hs'⟩ := List.forall_mem_cons.mp h
    have hne : s ≠ [] := fun hnil => hone hnil
    rw [digitValue?_of_isDigit hc, ih hne hs']
    rfl

lemma ofDigits_map (s : List Char) :
    ofDigits (s.map fun c => c.toNat - '0'.toNat) = Nat.ofDigitChars 10 s 0 := by
  rw [ofDigits, List.foldl_map, Nat.ofDigitChars]

/-- The decimal digits of a number. -/
lemma isDigit_of_mem_toDigits {n : Nat} {c : Char} (h : c ∈ Nat.toDigits 10 n) : c.isDigit :=
  Nat.isDigit_of_mem_toDigits (by decide) (by decide) h

/-- A number is read back from its digits. -/
lemma toNat?_toDigits {n : Nat} (h : n < 10 ^ maxDigits) :
    toNat? (Nat.toDigits 10 n) = some n := by
  have hlen : (Nat.toDigits 10 n).length ≤ maxDigits :=
    (Nat.length_toDigits_le_iff (by decide) (by decide)).mpr h
  rw [toNat?, digits?_of_isDigit Nat.toDigits_ne_nil fun _ => isDigit_of_mem_toDigits,
    Option.bind_some, List.length_map, if_pos hlen, ofDigits_map, Nat.ofDigitChars_ten_toDigits]

/-! ## Integers -/

lemma toInt?_toDigits {n : Nat} (h : n < 10 ^ maxDigits) :
    toInt? (Nat.toDigits 10 n) = some (n : Int) := by
  rw [toInt?, trim_of_not_isBlank fun c hc => isBlank_of_isDigit (isDigit_of_mem_toDigits hc)]
  -- a digit is no sign
  split
  · next t ht => exact absurd (isDigit_of_mem_toDigits (ht ▸ List.mem_cons_self)) (by decide)
  · next t ht => exact absurd (isDigit_of_mem_toDigits (ht ▸ List.mem_cons_self)) (by decide)
  · rw [toNat?_toDigits h]
    rfl

lemma toInt?_neg_toDigits {n : Nat} (h : n < 10 ^ maxDigits) :
    toInt? ('-' :: Nat.toDigits 10 n) = some (-(n : Int)) := by
  have hblank : ∀ c ∈ '-' :: Nat.toDigits 10 n, isBlank c = false := by
    rw [List.forall_mem_cons]
    exact ⟨by decide, fun c hc => isBlank_of_isDigit (isDigit_of_mem_toDigits hc)⟩
  rw [toInt?, trim_of_not_isBlank hblank]
  simp only [toNat?_toDigits h]
  rfl

lemma toList_toString_nat (n : Nat) : (toString n).toList = Nat.toDigits 10 n := by
  rw [Nat.toString_eq_ofList_toDigits, String.toList_ofList]

/-- The text of a natural number has no sign. -/
lemma head?_toString_nat (n : Nat) : (toString n).toList.head? ≠ some '-' := by
  rw [toList_toString_nat]
  intro h
  exact absurd (isDigit_of_mem_toDigits (List.mem_of_mem_head? h)) (by decide)

lemma toList_toString_negSucc (n : Nat) :
    (toString (Int.negSucc n)).toList = '-' :: Nat.toDigits 10 (n + 1) := by
  show ("-" ++ toString (n + 1)).toList = _
  rw [String.toList_append, toList_toString_nat]
  rfl

/-- A natural number is written as an integer is. -/
lemma toString_natCast (n : Nat) : toString (n : Int) = toString n := rfl

/-- An integer is read back from its text. -/
lemma toInt?_toString {n : Int} (h : n.natAbs < 10 ^ maxDigits) :
    toInt? (toString n).toList = some n := by
  cases n with
  | ofNat n =>
    show toInt? (toString n).toList = some (n : Int)
    rw [toList_toString_nat]
    exact toInt?_toDigits h
  | negSucc n =>
    rw [toList_toString_negSucc]
    exact toInt?_neg_toDigits h

end Numeral
end BitPack.Text
