/-
# Texts that spell bytes

A text spells bytes if it has two hexadecimal digits of either case for each of them, and blanks
anywhere but inside a byte (`Hex.Spells`).  Reading accepts just these texts and gives the bytes
that they spell (`Hex.parse_eq_ok_iff`).  Bytes are written in one of their spellings, so they are
read back from their text (`Hex.parse_render`).
-/
import BitPack.Text.Hex
import Mathlib.Tactic.Lemma

namespace BitPack.Text.Hex

/-- A text spells bytes: two digits each, with blanks between bytes. -/
inductive Spells : List Char → Bytes → Prop
  | nil : Spells [] []
  | gap {c : Char} {s : List Char} {data : Bytes} (hc : isGap c) (h : Spells s data) :
      Spells (c :: s) data
  | byte {c d : Char} {s : List Char} {data : Bytes} {x y : Nat} (hc : hexValue? c = some x)
      (hd : hexValue? d = some y) (h : Spells s data) :
      Spells (c :: d :: s) (UInt8.ofNat (16 * x + y) :: data)

/-! ## Characters -/

section Characters

variable {c : Char} {x : Nat}

/-- A digit is an ASCII character, above the blanks and the hyphen. -/
lemma toNat_of_hexValue? (h : hexValue? c = some x) : 48 ≤ c.toNat ∧ c.toNat ≤ 102 := by
  unfold hexValue? at h
  split at h
  · next hc =>
    have hrange : 48 ≤ c.toNat ∧ c.toNat ≤ 57 := hc
    omega
  · split at h
    · next hc =>
      have hrange : 65 ≤ c.toNat ∧ c.toNat ≤ 70 := hc
      omega
    · split at h
      · next hc =>
        have hrange : 97 ≤ c.toNat ∧ c.toNat ≤ 102 := hc
        omega
      · simp at h

lemma toNat_of_isGap (h : isGap c) : c.toNat ≤ 32 := by
  simp only [isGap, Bool.or_eq_true, beq_iff_eq, Bool.and_eq_true, decide_eq_true_eq] at h
  rcases h with rfl | ⟨-, hle⟩
  · decide
  · omega

lemma isGap_of_hexValue? (h : hexValue? c = some x) : isGap c = false := by
  rw [Bool.eq_false_iff]
  intro hgap
  have hdigit := toNat_of_hexValue? h
  have hblank := toNat_of_isGap hgap
  omega

end Characters

/-! ## Reading -/

variable {s : List Char} {data : Bytes}

lemma Spells.scan_eq_ok (h : Spells s data) (start : Nat) : scan start s = .ok data := by
  induction h generalizing start with
  | nil => rfl
  | @gap c s data hc h ih =>
    cases s with
    | nil =>
      cases h
      rw [scan, if_pos hc]
    | cons d s => rw [scan, if_pos hc, ih]
  | byte hc hd _ ih =>
    rw [scan, isGap_of_hexValue? hc, if_neg (by decide), hc, hd]
    dsimp only
    rw [ih]
    rfl

lemma spells_of_scan {start : Nat} (h : scan start s = .ok data) : Spells s data := by
  fun_induction scan start s generalizing data with
  | case1 =>
    cases h
    exact .nil
  | case2 start c hc =>
    cases h
    exact .gap hc .nil
  | case3 => cases h
  | case4 => cases h
  | case5 start c d s hc ih => exact .gap hc (ih h)
  | case6 => cases h
  | case7 => cases h
  | case8 start c d s hc x y hy hx ih =>
    rcases hscan : scan (start + 2) s with e | rest
    · rw [hscan] at h
      cases h
    · rw [hscan] at h
      cases h
      exact .byte hx hy (ih hscan)

/-- All characters of a spelling are ASCII. -/
lemma Spells.toNat_le (h : Spells s data) : ∀ c ∈ s, c.toNat ≤ 127 := by
  induction h with
  | nil => simp
  | gap hc _ ih =>
    have hle := toNat_of_isGap hc
    exact List.forall_mem_cons.mpr ⟨by omega, ih⟩
  | byte hc hd _ ih =>
    have hle := toNat_of_hexValue? hc
    have hle' := toNat_of_hexValue? hd
    exact List.forall_mem_cons.mpr ⟨by omega, List.forall_mem_cons.mpr ⟨by omega, ih⟩⟩

/-- Just the texts that spell bytes are read, as these. -/
lemma parse_eq_ok_iff {text : String} : parse text = .ok data ↔ Spells text.toList data := by
  unfold parse
  split
  · next i hi =>
    -- a character beyond ASCII is in no spelling
    obtain ⟨hlt, hbig, -⟩ := List.findIdx?_eq_some_iff_getElem.mp hi
    simp only [reduceCtorEq, false_iff]
    intro h
    have hle := h.toNat_le _ (List.getElem_mem hlt)
    have hgt := of_decide_eq_true hbig
    omega
  · exact ⟨spells_of_scan, fun h => h.scan_eq_ok 0⟩

/-! ## Writing -/

lemma spells_flatMap_ofByte (data : Bytes) : Spells (data.flatMap ofByte) data := by
  induction data with
  | nil => exact .nil
  | cons b data ih =>
    have hb := b.toNat_lt
    have hhigh : hexValue? (hexDigit (b.toNat / 16)) = some (b.toNat / 16) :=
      hexValue?_hexDigit (by omega)
    have hlow : hexValue? (hexDigit b.toNat) = some (b.toNat % 16) := by
      rw [← hexValue?_hexDigit (Nat.mod_lt b.toNat (by decide)), hexDigit, hexDigit,
        Nat.mod_mod]
    have hbyte := Spells.byte hhigh hlow ih
    rwa [Nat.div_add_mod, UInt8.ofNat_toNat] at hbyte

/-- Bytes are read back from their text. -/
lemma parse_render (data : Bytes) : parse (render data) = .ok data := by
  rw [parse_eq_ok_iff, render, String.toList_ofList]
  exact spells_flatMap_ofByte data

lemma length_render (data : Bytes) : (render data).length = 2 * data.length := by
  rw [render, String.length_ofList]
  induction data with
  | nil => rfl
  | cons b data ih =>
    rw [List.flatMap_cons, List.length_append, ih, ofByte, length_hexDigits, List.length_cons]
    omega

/-- A spelling does not start with a hyphen. -/
lemma Spells.head?_ne (h : Spells s data) : s.head? ≠ some '-' := by
  cases h with
  | nil => simp
  | gap hc _ =>
    rintro ⟨⟩
    exact absurd hc (by decide)
  | byte hc _ _ =>
    rintro ⟨⟩
    exact absurd (toNat_of_hexValue? hc).1 (by decide)

lemma head?_render (data : Bytes) : (render data).toList.head? ≠ some '-' := by
  rw [render, String.toList_ofList]
  exact (spells_flatMap_ofByte data).head?_ne

end BitPack.Text.Hex
