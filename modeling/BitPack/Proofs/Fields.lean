/-
# Parameters read by a library

A library builds parameters from named values if it can read every field, no name is left over and
the zigzag exponent is below the width (`FieldLibrary.paramsOfFields_eq_ok_iff`).  What it takes
for an integer or a truth value beside these themselves is its own affair.  A library that takes
these as they are, and nothing else is asked of it here, accepts fields with integers and a truth
value just if the width is one of the four sizes, a chunk has a payload bit and the zigzag exponent
is below the width, and the parameters are those values
(`FieldLibrary.TakesPlain.paramsOfFields_eq_ok_iff`).  The library in use is one of these
(`FieldLibrary.inUse_takesPlain`).
-/
import BitPack.Params.Reading
import BitPack.Proofs.Checks

namespace BitPack

/-! ## Fields -/

namespace Params

section Fields

variable {members : List (String × Json)} {α : Type} {name : String}
  {absent : Except FieldFault α} {read : Json → Except FieldFault α} {j : Json} {a : α}

lemma field_eq_ok_iff (h : Json.lookup name members = some j) :
    field name absent read members = .ok a ↔ read j = .ok a := by
  unfold field
  rw [h]
  dsimp only
  rcases read j with f | b
  · simp
  · simp

/-- A field with a default is read as if the default were given. -/
lemma field_eq_ok_iff_getD (h : read j = absent) :
    field name absent read members = .ok a ↔ read ((Json.lookup name members).getD j) = .ok a := by
  cases hlookup : Json.lookup name members with
  | none =>
    rw [Option.getD_none, h, field, hlookup]
    rcases absent with f | b
    · simp
    · simp
  | some i => exact field_eq_ok_iff hlookup

lemma strangers_eq_nil (h : ∀ m ∈ members, m.1 ∈ fieldNames) : strangers members = [] := by
  have hnone : (members.map (·.1)).filter (· ∉ fieldNames) = [] := by
    simpa [List.filter_eq_nil_iff] using fun name j hm => h (name, j) hm
  rw [strangers, hnone, List.eraseDups_nil]

end Fields

lemma zigzagExponent_lt_64 (p : Params) : p.zigzagExponent < 64 :=
  Nat.lt_of_lt_of_le p.zigzagExponent_lt p.width.bits_le

/-- Named values that are integers and a truth value; absent ones stand for their defaults. -/
structure Gives (members : List (String × Json)) (w c : Int) (s : Bool) (k : Int) : Prop where
  width_eq : (Json.lookup "width" members).getD (.int 64) = .int w
  chunkLength_eq : Json.lookup "chunk_length" members = some (.int c)
  signed_eq : (Json.lookup "signed" members).getD (.bool false) = .bool s
  zigzagExponent_eq : (Json.lookup "zigzag_exponent" members).getD (.int 0) = .int k
  known : ∀ m ∈ members, m.1 ∈ fieldNames

/-- The fields of parameters give the parameters. -/
lemma gives_toJson (p : Params) :
    Gives p.members p.width.bits p.chunkLength p.signed p.zigzagExponent where
  width_eq := rfl
  chunkLength_eq := rfl
  signed_eq := rfl
  zigzagExponent_eq := rfl
  known := by simp [members, fieldNames]

end Params

/-! ## Any library -/

namespace FieldLibrary

variable {lib : FieldLibrary} {members : List (String × Json)} {p : Params}

/-- Parameters are built from fields that can all be read. -/
lemma paramsOfFields_eq_ok_iff :
    lib.paramsOfFields members = .ok p ↔
      Params.field "width" (.ok .w64) lib.readWidth members = .ok p.width ∧
      Params.field "chunk_length" (.error .missing) lib.readChunkLength members =
        .ok ⟨p.chunkLength, p.chunkLength_pos⟩ ∧
      Params.field "signed" (.ok false) lib.boolean members = .ok p.signed ∧
      Params.field "zigzag_exponent" (.ok 0) lib.readExponent members = .ok p.zigzagExponent ∧
      Params.strangers members = [] := by
  simp only [paramsOfFields]
  generalize Params.field "width" (.ok .w64) lib.readWidth members = width
  generalize Params.field "chunk_length" (.error .missing) lib.readChunkLength members =
    chunkLength
  generalize Params.field "signed" (.ok false) lib.boolean members = signed
  generalize Params.field "zigzag_exponent" (.ok 0) lib.readExponent members = exponent
  -- a field that cannot be read leaves no parameters
  rcases width with e | w
  · simp
  rcases chunkLength with e | ⟨c, hc⟩
  · simp
  rcases signed with e | s
  · simp
  rcases exponent with e | k
  · simp
  rcases Params.strangers members with _ | ⟨x, xs⟩
  · rcases p with ⟨w', c', s', k', hc', hk'⟩
    simp only [List.map_nil, Except.ok.injEq, Subtype.mk.injEq, and_true]
    constructor
    · intro h
      split at h
      · cases h
        exact ⟨rfl, rfl, rfl, rfl⟩
      · cases h
    · rintro ⟨rfl, rfl, rfl, rfl⟩
      rw [dif_pos hk']
  · simp

namespace TakesPlain

variable (h : lib.TakesPlain) {n : Int}
include h

lemma readWidth_eq_ok_iff {w : Width} : lib.readWidth (.int n) = .ok w ↔ n = w.bits := by
  simp only [readWidth, Except.map_eq_ok_iff, h.integer_eq_ok_iff]
  constructor
  · rintro ⟨m, rfl, hm⟩
    exact Width.ofSize_eq_iff.mp hm
  · rintro rfl
    exact ⟨⟨w.bits, w.bits_mem_sizes⟩, rfl, Width.ofSize_eq_iff.mpr rfl⟩

lemma readChunkLength_eq_ok_iff {c : { n : Nat // 0 < n }} :
    lib.readChunkLength (.int n) = .ok c ↔ n = c.val := by
  obtain ⟨c, hc⟩ := c
  simp only [readChunkLength, Except.map_eq_ok_iff, h.integer_eq_ok_iff, Subtype.mk.injEq]
  constructor
  · rintro ⟨⟨m, hm, -⟩, rfl, rfl⟩
    dsimp only
    omega
  · rintro rfl
    exact ⟨⟨c, by omega, by simp⟩, rfl, rfl⟩

lemma readExponent_eq_ok_iff {k : Nat} :
    lib.readExponent (.int n) = .ok k ↔ n = k ∧ k < 64 := by
  simp only [readExponent, Except.map_eq_ok_iff, h.integer_eq_ok_iff]
  constructor
  · rintro ⟨⟨m, hm, hbound⟩, rfl, rfl⟩
    have hlt := hbound 64 rfl
    dsimp only
    omega
  · rintro ⟨rfl, hk⟩
    exact ⟨⟨k, by omega, by rintro _ ⟨⟩; omega⟩, rfl, rfl⟩

section Gives

variable {w c k : Int} {s : Bool} (hgives : Params.Gives members w c s k)
include hgives

/-- Accepted parameters are the values that are given. -/
lemma paramsOfFields_eq_ok_iff :
    lib.paramsOfFields members = .ok p ↔
      w = p.width.bits ∧ c = p.chunkLength ∧ s = p.signed ∧ k = p.zigzagExponent := by
  have hwidth : lib.readWidth (.int 64) = .ok .w64 := h.readWidth_eq_ok_iff.mpr rfl
  have hsigned : lib.boolean (.bool false) = .ok false := h.boolean_eq false
  have hzigzag : lib.readExponent (.int 0) = .ok 0 := h.readExponent_eq_ok_iff.mpr (by decide)
  rw [FieldLibrary.paramsOfFields_eq_ok_iff, Params.field_eq_ok_iff_getD hwidth,
    Params.field_eq_ok_iff hgives.chunkLength_eq, Params.field_eq_ok_iff_getD hsigned,
    Params.field_eq_ok_iff_getD hzigzag, hgives.width_eq, hgives.signed_eq,
    hgives.zigzagExponent_eq, h.readWidth_eq_ok_iff, h.readChunkLength_eq_ok_iff,
    h.readExponent_eq_ok_iff, h.boolean_eq, Except.ok.injEq]
  simp [Params.strangers_eq_nil hgives.known, p.zigzagExponent_lt_64]

/-- The values of accepted parameters are within their bounds, and all such values are accepted. -/
lemma exists_paramsOfFields_eq_ok_iff :
    (∃ p, lib.paramsOfFields members = .ok p) ↔
      (w = 8 ∨ w = 16 ∨ w = 32 ∨ w = 64) ∧ 1 ≤ c ∧ 0 ≤ k ∧ k < w := by
  simp only [h.paramsOfFields_eq_ok_iff hgives, ← Width.exists_eq_bits_iff]
  constructor
  · rintro ⟨p, hw, hc, -, hk⟩
    have hchunk := p.chunkLength_pos
    have hexponent := p.zigzagExponent_lt
    exact ⟨⟨p.width, hw⟩, by omega, by omega, by omega⟩
  · rintro ⟨⟨v, hv⟩, hc, hk, hkw⟩
    refine ⟨⟨v, c.toNat, s, k.toNat, by omega, by omega⟩, hv, ?_, rfl, ?_⟩
    · exact (Int.toNat_of_nonneg (by omega)).symm
    · exact (Int.toNat_of_nonneg hk).symm

end Gives
end TakesPlain

/-! ## The library in use -/

lemma inUse_takesPlain : inUse.TakesPlain where
  integer_eq_ok_iff {c n m} := by
    cases c with
    | between least bound => exact Constraint.check_eq_ok_iff
    | oneOf choices =>
      show (readChoice choices (.int n) >>= Constraint.check (.oneOf choices)) = .ok m ↔ _
      rw [readChoice]
      split_ifs with hread
      · exact Constraint.check_eq_ok_iff
      · -- only an integer that is no choice is refused for its size
        refine ⟨nofun, ?_⟩
        rintro rfl
        exact absurd (.inl m.property) hread
  boolean_eq _ := rfl

end FieldLibrary
end BitPack
