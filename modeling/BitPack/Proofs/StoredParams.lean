/-
# Parameters stored as JSON text

Parameters are stored as the text of an object with three integers and a truth value.  They come
back from it by way of any library that is exact about these, however many digits the integers
have, since a library that takes them as they are accepts the fields of parameters
(`survives_storage`).  An exact library has no limit on digits, such as `unlimited`
(`exact_unlimited`).  The one in use is exact but for such a limit, so the parameters that it reads
back are those with a chunk length within the limit (`ofText_toText_eq_ok_iff`).
-/
import BitPack.Proofs.Fields
import BitPack.Proofs.JsonText

namespace BitPack

open Text.Numeral (maxDigits)

/-! ## Any exact library -/

namespace FieldLibrary.Exact

variable {lib : FieldLibrary} (h : lib.Exact)
include h

lemma paramsOfText_paramsText (p : Params) : lib.paramsOfText (lib.paramsText p) = .ok p := by
  have hplain : ∀ m ∈ p.members, m.2.IsPlain := by simp [Params.members, Json.IsPlain]
  have hnames : (p.members.map (·.1)).Nodup := by simp [Params.members]
  rw [paramsOfText, paramsText, Params.toJson, h.parse_print hplain hnames]
  exact (h.paramsOfFields_eq_ok_iff p.gives_toJson).mpr ⟨rfl, rfl, rfl, rfl⟩

end FieldLibrary.Exact

/-! ## Objects of integers and truth values -/

namespace Json

variable {limits : Limits} {depth : Nat}

lemma membersFit_iff {ms : List (String × Json)} :
    membersFit limits depth ms ↔ ∀ m ∈ ms, fits limits depth m.2 := by
  induction ms with
  | nil => simp [membersFit]
  | cons m ms ih =>
    obtain ⟨k, j⟩ := m
    simp [membersFit, ih]

lemma length_renderChars_le_renderMembers {ms : List (String × Json)} {m : String × Json}
    (hm : m ∈ ms) : m.2.renderChars.length ≤ (renderMembers ms).length := by
  induction ms with
  | nil => cases hm
  | cons m' ms ih =>
    obtain ⟨k, j⟩ := m'
    simp only [renderMembers, List.length_append, List.length_cons]
    rcases List.mem_cons.mp hm with rfl | hm
    · dsimp only
      omega
    · have hle := ih hm
      omega

/-- The text of a member is part of the text of the object. -/
lemma length_renderChars_le_render {ms : List (String × Json)} {m : String × Json} (hm : m ∈ ms) :
    m.2.renderChars.length ≤ (object ms).render.length := by
  rw [render, String.length_ofList]
  cases ms with
  | nil => cases hm
  | cons m' ms =>
    obtain ⟨k, j⟩ := m'
    simp only [renderChars, List.length_append, List.length_cons]
    rcases List.mem_cons.mp hm with rfl | hm
    · dsimp only
      omega
    · have hle := length_renderChars_le_renderMembers hm
      omega

/-- An integer has at most as many digits as its text has characters. -/
lemma length_toDigits_le (n : Int) :
    (Nat.toDigits 10 n.natAbs).length ≤ (renderChars (.int n)).length := by
  rw [renderChars]
  cases n with
  | ofNat n => exact Nat.le_of_eq (congrArg List.length (Text.Numeral.toList_toString_nat n)).symm
  | negSucc n =>
    rw [Text.Numeral.toList_toString_negSucc, List.length_cons, Int.natAbs_negSucc]
    exact Nat.le_succ _

end Json

namespace FieldLibrary

/-! ## A library without a limit on digits -/

/-- The library in use without its limit on digits: an integer may be as long as the text. -/
def unlimited : FieldLibrary :=
  { inUse with parse := fun s => Json.parse? ⟨textLimits.depth, s.length⟩ s }

lemma exact_unlimited : unlimited.Exact where
  integer_eq_ok_iff := inUse_takesPlain.integer_eq_ok_iff
  boolean_eq := inUse_takesPlain.boolean_eq
  parse_print {members} hplain _ := by
    show Json.parse? ⟨textLimits.depth, (Json.object members).render.length⟩
      (Json.object members).render = _
    rw [Json.parse?_render, if_pos]
    have hdepth : 0 < textLimits.depth := by decide
    simp only [Json.fits, hdepth, decide_true, Bool.true_and, Bool.or_eq_true, Json.membersFit_iff]
    refine .inr fun m hm => ?_
    obtain ⟨k, j⟩ := m
    have hlen := Json.length_renderChars_le_render hm
    have hj := hplain _ hm
    cases j with
    | int n => simpa [Json.fits, Json.digitsFit] using Nat.le_trans (Json.length_toDigits_le n) hlen
    | bool b => rfl
    | null | decimal | nonFinite | text | array | object => cases hj

/-! ## The library in use -/

lemma parse_print_inUse (j : Json) :
    inUse.parse (inUse.print j) = if Json.fits textLimits 0 j then some j else none :=
  Json.parse?_render textLimits j

/-- Only the length of a chunk can have more digits than the library in use reads. -/
lemma fits_toJson_iff {p : Params} :
    Json.fits textLimits 0 p.toJson ↔ p.chunkLength < 10 ^ maxDigits := by
  have hdigits (n : Nat) : (Nat.toDigits 10 n).length ≤ maxDigits ↔ n < 10 ^ maxDigits :=
    Nat.length_toDigits_le_iff (by decide) (by decide)
  have hsmall {n : Nat} (hn : n ≤ 64) : n < 10 ^ maxDigits :=
    calc n < 10 ^ 2 := by omega
      _ ≤ 10 ^ maxDigits := Nat.pow_le_pow_right (by decide) (by decide)
  have hexponent := hsmall (Nat.le_of_lt p.zigzagExponent_lt_64)
  simp [Params.toJson, Params.members, Json.fits, Json.membersFit, Json.digitsFit, textLimits,
    hdigits, hsmall p.width.bits_le, hexponent]

end FieldLibrary

namespace Params

/-- The library in use reads parameters back from their text, and no others, if the length of a
chunk has at most `maxDigits` digits. -/
theorem ofText_toText_eq_ok_iff {p q : Params} :
    ofText p.toText = .ok q ↔ p.chunkLength < 10 ^ maxDigits ∧ q = p := by
  have hread : FieldLibrary.inUse.paramsOfJson p.toJson = .ok p :=
    (FieldLibrary.inUse_takesPlain.paramsOfFields_eq_ok_iff p.gives_toJson).mpr
      ⟨rfl, rfl, rfl, rfl⟩
  rw [ofText, FieldLibrary.paramsOfText, toText, FieldLibrary.paramsText,
    FieldLibrary.parse_print_inUse]
  split_ifs with hfits
  · simp [hread, FieldLibrary.fits_toJson_iff.mp hfits, eq_comm]
  · simp [mt FieldLibrary.fits_toJson_iff.mpr hfits]

/-- **Parameters survive storage.**  Let a library take integers and truth values as they are, as
far as they satisfy the constraint of their field, and read them back from the text of an object.
Then parameters come back from their text, with all that can be asked of them.  Fields with integers
and a truth value are accepted just within their bounds, and the parameters are those values. -/
theorem survives_storage (lib : FieldLibrary) (hlib : lib.Exact) :
    (∀ p : Params, ∃ q, lib.paramsOfText (lib.paramsText p) = .ok q ∧ q = p ∧
      q.minValue = p.minValue ∧ q.maxValue = p.maxValue ∧ q.maxBits = p.maxBits ∧
      lib.paramsText q = lib.paramsText p) ∧
    ∀ (members : List (String × Json)) (w c k : Int) (s : Bool), Gives members w c s k →
      ((∃ p, lib.paramsOfFields members = .ok p) ↔
        (w = 8 ∨ w = 16 ∨ w = 32 ∨ w = 64) ∧ 1 ≤ c ∧ 0 ≤ k ∧ k < w) ∧
      ∀ p, lib.paramsOfFields members = .ok p ↔
        w = p.width.bits ∧ c = p.chunkLength ∧ s = p.signed ∧ k = p.zigzagExponent := by
  refine ⟨fun p => ⟨p, hlib.paramsOfText_paramsText p, rfl, rfl, rfl, rfl, rfl⟩, ?_⟩
  intro members w c k s hgives
  exact ⟨hlib.exists_paramsOfFields_eq_ok_iff hgives,
    fun _ => hlib.paramsOfFields_eq_ok_iff hgives⟩

/-- A chunk of 10 ^ 18 payload bits is stored, and accepted as a field. -/
theorem survives_storage_long_chunk :
    let lib := FieldLibrary.unlimited
    let p : Params := ⟨.w16, 1000000000000000000, true, 2, by decide, by decide⟩
    let members : List (String × Json) :=
      [("chunk_length", .int 1000000000000000000), ("width", .int 16), ("signed", .bool true),
        ("zigzag_exponent", .int 2)]
    lib.Exact ∧ lib.paramsOfText (lib.paramsText p) = .ok p ∧
      Gives members 16 1000000000000000000 true 2 ∧ lib.paramsOfFields members = .ok p := by
  intro lib p members
  have hlib : lib.Exact := FieldLibrary.exact_unlimited
  obtain ⟨hstored, hfields⟩ := survives_storage lib hlib
  obtain ⟨q, hq, hqp, -⟩ := hstored p
  rw [hqp] at hq
  have hgives : Gives members 16 1000000000000000000 true 2 := ⟨rfl, rfl, rfl, rfl, by decide⟩
  exact ⟨hlib, hq, hgives, ((hfields members _ _ _ _ hgives).2 p).mpr ⟨rfl, rfl, rfl, rfl⟩⟩

end Params
end BitPack
