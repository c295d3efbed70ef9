/-
# Streams as text, continued

A text of the characters `0` and `1` stands for one run of bits and a run has one text, so
what is said about the texts is said about the runs: reading a text as a number or as a
buffer of words is packing its run, and completing the text is completing the run.
-/
import BitPack.BitText
import BitPack.Proofs.Checks
import BitPack.Proofs.Packing

namespace BitPack.BitText

/-! ## Texts of runs -/

/-- The bits of a stream text of at most 64 characters. -/
def checkedBits (text : String) : Except Error Bits :=
  if 64 < text.length then .error (.textTooLong 64 text.length)
  else match toBits? text with
    | some s => .ok s
    | none => .error (.textCharacter text)

lemma eq_map_of_mapM_bitOfChar? {l : List Char} {s : Bits} (h : l.mapM bitOfChar? = some s) :
    l = s.map charOfBit := by
  induction l generalizing s with
  | nil =>
    obtain rfl : [] = s := by simpa using h
    rfl
  | cons x l ih =>
    simp only [List.mapM_cons, Option.bind_eq_bind, Option.pure_def, Option.bind_eq_some_iff,
      Option.some.injEq] at h
    obtain ⟨b, hb, t, ht, rfl⟩ := h
    rw [List.map_cons, ← ih ht, bitOfChar?_eq_some_iff.mp hb]

/-- A text reads as a run exactly if it is the text of the run. -/
lemma toBits?_eq_some_iff {text : String} {s : Bits} :
    toBits? text = some s ↔ text = ofBits s := by
  constructor
  · intro h
    rw [ofBits, ← eq_map_of_mapM_bitOfChar? h, String.ofList_toList]
  · rintro rfl
    exact toBits?_ofBits s

lemma length_of_toBits? {text : String} {s : Bits} (h : toBits? text = some s) :
    text.length = s.length := by
  rw [toBits?_eq_some_iff.mp h, length_ofBits]

lemma checkedBits_eq_ok_iff {text : String} {s : Bits} :
    checkedBits text = .ok s ↔ text = ofBits s ∧ s.length ≤ 64 := by
  constructor
  · intro h
    unfold checkedBits at h
    split at h
    · simp at h
    · split at h
      · next t ht =>
        obtain rfl : t = s := by simpa using h
        have := length_of_toBits? ht
        exact ⟨toBits?_eq_some_iff.mp ht, by omega⟩
      · simp at h
  · rintro ⟨rfl, h⟩
    rw [checkedBits, length_ofBits, if_neg (by omega), toBits?_ofBits]

/-- A run of at most 64 bits is shown as its text. -/
lemma ofNumber_toNat {s : Bits} (h : s.length ≤ 64) :
    ofNumber (Bits.toNat s) s.length = .ok (ofBits s) := by
  have hcheck : checkCount 64 s.length = .ok s.length := checkCount_natCast (by omega)
  rw [ofNumber, ofBitset, Option.getD_some, hcheck]
  show Except.ok (ofBits (Bits.ofInt s.length (Bits.toNat s))) = _
  rw [Bits.ofInt_toNat]

/-- The number of a text is that of its bits. -/
lemma toNumber_eq (text : String) : toNumber text = Bits.toNat <$> checkedBits text := by
  have hlen : (64 : Int) < text.length ↔ 64 < text.length := by omega
  simp only [toNumber, toBitset, checkedBits, hlen]
  by_cases h : 64 < text.length
  · simp only [if_pos h]
    rfl
  · simp only [if_neg h]
    cases toBits? text <;> rfl

/-! ## Buffers of words -/

lemma toBitset_ofBits {n : Nat} {s : Bits} (h : s.length ≤ n) :
    toBitset (ofBits s) n = .ok (Bits.toNat s) := by
  rw [toBitset, length_ofBits, if_neg (by omega), toBits?_ofBits]

lemma mapM_toBitset {n : Nat} {ps : List Bits} (h : ∀ p ∈ ps, p.length ≤ n) :
    ((ps.map (List.map charOfBit)).mapM fun p => toBitset (String.ofList p) n) =
      .ok (ps.map Bits.toNat) := by
  induction ps with
  | nil => rfl
  | cons p ps ih =>
    rw [List.forall_mem_cons] at h
    have hp : toBitset (String.ofList (p.map charOfBit)) n = .ok (Bits.toNat p) :=
      toBitset_ofBits h.1
    rw [List.map_cons, List.mapM_cons, hp, ih h.2]
    rfl

/-- The buffer of the text of a run holds the words of the run. -/
lemma toBuffer_ofBits {n : Nat} (hn : 0 < n) (s : Bits) :
    toBuffer (ofBits s) n = .ok (Bits.toWords n s) := by
  rw [toBuffer, if_neg (by omega), Int.toNat_natCast, toList_ofBits, pieces_map,
    mapM_toBitset fun p hp => length_le_of_mem_pieces hp, Bits.toWords]

/-- The text of a buffer shows the low bits of its words. -/
lemma ofBuffer_natCast (n : Nat) (words : List Int) :
    ofBuffer words n = .ok (ofWords n words) := by
  unfold ofBuffer
  split
  · next h => rw [h]; rfl
  · rw [checkCount_natCast (Int.le_refl _)]
    rfl

/-- The characters behind the last whole word of a text. -/
lemma fmod_length (text : String) (n : Nat) :
    Int.fmod text.length n = (text.length % n : Nat) := by
  rw [Int.fmod_eq_emod_of_nonneg _ (by omega)]
  norm_cast

/-- Completing the text of a run completes the run. -/
lemma padTo_ofBits {n : Nat} (hn : 0 < n) (s : Bits) :
    padTo (ofBits s) n = .ok (ofBits (Bits.pad n s)) := by
  have hdiv := Nat.div_add_mod s.length n
  rw [padTo, if_neg (by omega), fmod_length, length_ofBits]
  dsimp only
  by_cases h0 : s.length % n = 0
  · -- whole words need no zeros
    rw [if_pos (by omega), Bits.pad_of_length_eq hn (k := s.length / n) (by omega)]
  · have hlt := Nat.mod_lt s.length hn
    have hcount : wordsNeeded n s.length = s.length / n + 1 :=
      wordsNeeded_eq hn (by rw [Nat.mul_succ]; omega) (by rw [Nat.mul_succ]; omega)
    have hzeros : ((n : Int) - (s.length % n : Nat)).toNat =
        n * wordsNeeded n s.length - s.length := by
      rw [hcount, Nat.mul_succ]
      omega
    rw [if_neg (by omega), hzeros, Bits.pad, ofBits, ofBits, List.map_append,
      String.ofList_append, List.map_replicate]
    rfl

lemma ofWords_toWords {n : Nat} (hn : 0 < n) (s : Bits) :
    ofWords n ((Bits.toWords n s).map fun x : Nat => (x : Int)) = ofBits (Bits.pad n s) := by
  rw [← Bits.unpack_toWords hn]
  rfl

end BitPack.BitText
