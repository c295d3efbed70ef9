/-
# Sequences cut short

The bits of a sequence are cut inside the field of one value (`Params.CutAt`), whose index is
the number of the fields that end in front of the cut (`Params.fieldsWithin`).  The values in
front of it are read as ever.  What comes behind depends on where the cut lies.

* At the end of a word nothing follows the cut.  The rest of a field is no field, so the value
  that is cut is the first that cannot be read (`decode_take_words`).
* Elsewhere zeros complete the word, and they may complete the field as well: its missing
  payload bits are then read as zeros, and further zeros as further values
  (`Params.zeroFilled`).  Unless one of these runs over the word (`Params.RunsOver`), a sequence
  is read that is the right one exactly if no set bit has been cut off (`decode_take`).
-/
import BitPack.Proofs.CutCodes
import BitPack.Proofs.TrailingZeros
import Mathlib.Data.Nat.Count

namespace BitPack

open Text.Numeral (maxDigits)

namespace Params

/-- The number of the fields of a sequence that end within the first `n` bits. -/
def fieldsWithin (p : Params) (values : List Int) (n : Nat) : Nat :=
  Nat.count (fun i => p.startOf values (i + 1) ≤ n) values.length

/-- The value that is read for `v` when only the first `k` bits of its field are there and zeros
follow: the one that the payload bits among them stand for. -/
def cutValue (p : Params) (v : Int) (k : Nat) : Int :=
  p.value (p.code v % 2 ^ p.chunking.payloadOf k)

/-- What is read for a sequence when only its first `n` bits are there and zeros follow: the
values in front of the cut, the value that is cut, and zeros. -/
def zeroFilled (p : Params) (values : List Int) (n : Nat) : List Int :=
  let j := p.fieldsWithin values n
  values.take j ++ p.cutValue (values.getD j 0) (n - p.startOf values j) ::
    List.replicate (values.length - (j + 1)) 0

/-- Where the value of an index from the cut on ends when zeros are in the place of all bits
behind the first `n`: the value that is cut ends with the chunk that is cut, and every further
one is a zero. -/
def zeroFilledEnd (p : Params) (values : List Int) (n i : Nat) : Nat :=
  let j := p.fieldsWithin values n
  p.startOf values j + p.chunking.chunkEnd p.width.bits (n - p.startOf values j) +
    (i - j) * p.chunking.size 0

/-- The value of an index from the cut on does not end within the words of the first `n` bits,
when zeros are in the place of all bits behind these. -/
def RunsOver (p : Params) (w : Width) (values : List Int) (n i : Nat) : Prop :=
  p.fieldsWithin values n ≤ i ∧ i < values.length ∧
    w.bits * wordsNeeded w.bits n < p.zeroFilledEnd values n i

instance (p : Params) (w : Width) (values : List Int) (n : Nat) :
    DecidablePred (p.RunsOver w values n) := fun _ => inferInstanceAs (Decidable (_ ∧ _ ∧ _))

/-- The bits of a sequence are cut behind `n` bits, inside the field of `v`: behind all fields of
`front` and `k` bits of this field. -/
structure CutAt (p : Params) (values : List Int) (n : Nat) (front : List Int) (v : Int)
    (rest : List Int) (k : Nat) : Prop where
  values_eq : values = front ++ v :: rest
  bits_eq : n = (p.sequenceBits front).length + k
  lt_length : k < (p.fieldBits v).length

variable {p : Params} {values front rest : List Int} {v : Int} {n k : Nat}

/-! ## Where the cut lies -/

lemma exists_cutAt (h : n < (p.sequenceBits values).length) :
    ∃ front v rest k, p.CutAt values n front v rest k := by
  induction values generalizing n with
  | nil => simp at h
  | cons v vs ih =>
    by_cases hn : n < (p.fieldBits v).length
    · exact ⟨[], v, vs, n, rfl, by simp, hn⟩
    · rw [sequenceBits_cons, List.length_append] at h
      obtain ⟨front, u, rest, k, hvs, hbits, hk⟩ := ih (n := n - (p.fieldBits v).length) (by omega)
      refine ⟨v :: front, u, rest, k, by rw [hvs, List.cons_append], ?_, hk⟩
      rw [sequenceBits_cons, List.length_append]
      omega

namespace CutAt

variable (h : p.CutAt values n front v rest k)
include h

lemma length_eq : values.length = front.length + (rest.length + 1) := by
  rw [h.values_eq, List.length_append, List.length_cons]

/-- The bounds hold in front of the cut, for the value that is cut and behind it. -/
lemma forall_inRange (hv : ∀ v ∈ values, p.InRange v) :
    (∀ u ∈ front, p.InRange u) ∧ p.InRange v ∧ ∀ u ∈ rest, p.InRange u := by
  rwa [h.values_eq, List.forall_mem_append, List.forall_mem_cons] at hv

lemma sequenceBits_eq :
    p.sequenceBits values = p.sequenceBits front ++ (p.fieldBits v ++ p.sequenceBits rest) := by
  rw [h.values_eq, sequenceBits_append, sequenceBits_cons]

lemma le_length : n ≤ (p.sequenceBits values).length := by
  have hlt := h.lt_length
  rw [h.sequenceBits_eq, List.length_append, List.length_append, h.bits_eq]
  omega

/-- In front of the cut are the fields of the values there and the beginning of the next one. -/
lemma take_sequenceBits :
    (p.sequenceBits values).take n = p.sequenceBits front ++ (p.fieldBits v).take k := by
  rw [h.sequenceBits_eq, h.bits_eq, List.take_length_add_append,
    List.take_append_of_le_length (Nat.le_of_lt h.lt_length)]

lemma drop_sequenceBits :
    (p.sequenceBits values).drop n = (p.fieldBits v).drop k ++ p.sequenceBits rest := by
  rw [h.sequenceBits_eq, h.bits_eq, List.drop_length_add_append,
    List.drop_append_of_le_length (Nat.le_of_lt h.lt_length)]

lemma startOf_eq : p.startOf values front.length = (p.sequenceBits front).length := by
  rw [startOf_eq_length, h.values_eq, List.take_left]

lemma sub_startOf : n - p.startOf values front.length = k := by
  rw [h.startOf_eq, h.bits_eq, Nat.add_sub_cancel_left]

/-- The fields that end in front of the cut are those of the values there. -/
lemma fieldsWithin_eq : p.fieldsWithin values n = front.length := by
  have hnext : p.startOf values (front.length + 1) =
      (p.sequenceBits front).length + (p.fieldBits v).length := by
    rw [startOf_eq_length, h.values_eq, List.take_length_add_append, List.take_succ_cons,
      List.take_zero, sequenceBits_append, sequenceBits_cons, sequenceBits_nil, List.append_nil,
      List.length_append]
  have hfront : Nat.count (fun i => p.startOf values (i + 1) ≤ n) front.length =
      front.length := by
    rw [Nat.count_iff_forall]
    intro i hi
    have hmono : p.startOf values (i + 1) ≤ p.startOf values front.length :=
      startOf_mono p values hi
    rw [h.startOf_eq] at hmono
    have hbits := h.bits_eq
    omega
  have hbehind : Nat.count (fun i => p.startOf values (front.length + i + 1) ≤ n)
      (rest.length + 1) = 0 := by
    rw [Nat.count_iff_forall_not]
    intro i _ hle
    have hmono : p.startOf values (front.length + 1) ≤ p.startOf values (front.length + i + 1) :=
      startOf_mono p values (by omega)
    have hbits := h.bits_eq
    have hlt := h.lt_length
    omega
  rw [fieldsWithin, h.length_eq, Nat.count_add, hfront, hbehind, Nat.add_zero]

lemma zeroFilled_eq :
    p.zeroFilled values n = front ++ p.cutValue v k :: List.replicate rest.length 0 := by
  have htake : values.take front.length = front := by rw [h.values_eq, List.take_left]
  have hget : values.getD front.length 0 = v := by
    rw [h.values_eq, List.getD_eq_getElem?_getD, List.getElem?_append_right (Nat.le_refl _),
      Nat.sub_self, List.getElem?_cons_zero, Option.getD_some]
  have hlen : values.length - (front.length + 1) = rest.length := by
    rw [h.length_eq]
    omega
  rw [zeroFilled, h.fieldsWithin_eq, h.sub_startOf, htake, hget, hlen]

lemma zeroFilledEnd_add (i : Nat) :
    p.zeroFilledEnd values n (front.length + i) = (p.sequenceBits front).length +
      p.chunking.chunkEnd p.width.bits k + i * p.chunking.size 0 := by
  rw [zeroFilledEnd, h.fieldsWithin_eq, h.sub_startOf, h.startOf_eq, Nat.add_sub_cancel_left]

section RunsOver

variable {w : Width} {z : Nat} (hz : n + z = w.bits * wordsNeeded w.bits n)
include hz

/-- Which of the values from the cut on run over words that have room for `z` further bits. -/
lemma runsOver_iff {i : Nat} :
    p.RunsOver w values n i ↔ ∃ m ≤ rest.length, i = front.length + m ∧
      k + z < p.chunking.chunkEnd p.width.bits k + m * p.chunking.size 0 := by
  have hlen := h.length_eq
  have hbits := h.bits_eq
  rw [RunsOver, h.fieldsWithin_eq]
  constructor
  · rintro ⟨hle, hlt, hend⟩
    obtain ⟨m, rfl⟩ := Nat.exists_eq_add_of_le hle
    rw [h.zeroFilledEnd_add] at hend
    exact ⟨m, by omega, rfl, by omega⟩
  · rintro ⟨m, hm, rfl, hend⟩
    rw [h.zeroFilledEnd_add]
    omega

/-- The first value without room is the first one that runs over the words. -/
lemma isLeast_runsOver {m : Nat} (hm : m ≤ rest.length)
    (hend : k + z < p.chunking.chunkEnd p.width.bits k + m * p.chunking.size 0)
    (hroom : ∀ i < m, p.chunking.chunkEnd p.width.bits k + i * p.chunking.size 0 ≤ k + z) :
    IsLeast {i | p.RunsOver w values n i} (front.length + m) := by
  constructor
  · exact (h.runsOver_iff hz).mpr ⟨m, hm, rfl, hend⟩
  · intro x hover
    obtain ⟨i, -, rfl, hi⟩ := (h.runsOver_iff hz).mp hover
    refine Nat.add_le_add_left ?_ _
    by_contra him
    exact Nat.not_le.mpr hi (hroom i (Nat.lt_of_not_le him))

end RunsOver

end CutAt

/-! ## What is read -/

/-- A cut value is within the bounds. -/
lemma inRange_cutValue (hv : p.InRange v) (k : Nat) : p.InRange (p.cutValue v k) := by
  obtain ⟨-, hlt⟩ := inRange_iff.mp hv
  exact inRange_value (Nat.lt_of_le_of_lt (Nat.mod_le _ _) hlt)

/-- A cut value is the right one exactly if no set bit of its field has been cut off. -/
lemma cutValue_eq_iff (hv : p.InRange v) (hk : k < (p.fieldBits v).length) :
    p.cutValue v k = v ↔ ∀ b ∈ (p.fieldBits v).drop k, b = false := by
  obtain ⟨hvalue, hlt⟩ := inRange_iff.mp hv
  have hbits : (∀ b ∈ (p.fieldBits v).drop k, b = false) ↔
      p.code v < 2 ^ p.chunking.payloadOf k :=
    Chunking.forall_mem_drop_encodeFrom_iff hlt hk
  rw [hbits]
  constructor
  · intro heq
    have hcode := congrArg p.code heq
    rw [cutValue, code_value] at hcode
    exact (Nat.mod_eq_iff_lt (Nat.two_pow_pos _).ne').mp hcode
  · intro hsmall
    rw [cutValue, Nat.mod_eq_of_lt hsmall, hvalue]

/-- Of zeros only zeros are read, as many as have room. -/
lemma valuesAhead_zeros (p : Params) (m z : Nat) :
    ∃ i ≤ m, p.valuesAhead m (List.replicate z false) = List.replicate i 0 ∧
      i * p.chunking.size 0 ≤ z ∧ (i < m → z < (i + 1) * p.chunking.size 0) := by
  induction m generalizing z with
  | zero => exact ⟨0, Nat.le_refl 0, rfl, by omega, by omega⟩
  | succ m ih =>
    have hd := Chunking.decode_zeros p.chunking z
    split at hd
    · -- the zeros fill a field
      obtain ⟨i, hi, hrest, hle, hlt⟩ := ih (z - p.chunking.size 0)
      refine ⟨i + 1, Nat.succ_le_succ hi, ?_, ?_, ?_⟩
      · rw [valuesAhead, hd]
        dsimp only
        rw [hrest, value_zero, List.replicate_succ]
      · rw [Nat.succ_mul]
        omega
      · intro him
        have hnext := hlt (Nat.lt_of_succ_lt_succ him)
        rw [Nat.succ_mul]
        omega
    · exact ⟨0, Nat.zero_le _, valuesAhead_of_none hd _, by omega, by omega⟩

/-- Nothing is read of a field that is cut short, unless zeros follow. -/
lemma decode_take_fieldBits (hk : k < (p.fieldBits v).length) :
    p.chunking.decode ((p.fieldBits v).take k) = none :=
  Chunking.decode_take_encode hk

/-- Of a field that is cut short and the zeros behind it nothing is read if these do not fill
the chunk that is cut, and otherwise the cut value and as many zeros as have room. -/
lemma valuesAhead_take_fieldBits (hk : k < (p.fieldBits v).length) (m z : Nat) :
    (k + z < p.chunking.chunkEnd p.width.bits k ∧
        p.valuesAhead (m + 1) ((p.fieldBits v).take k ++ List.replicate z false) = []) ∨
      ∃ i ≤ m, p.valuesAhead (m + 1) ((p.fieldBits v).take k ++ List.replicate z false) =
          p.cutValue v k :: List.replicate i 0 ∧
        p.chunking.chunkEnd p.width.bits k + i * p.chunking.size 0 ≤ k + z ∧
        (i < m → k + z < p.chunking.chunkEnd p.width.bits k + (i + 1) * p.chunking.size 0) := by
  have hd : p.chunking.decode ((p.fieldBits v).take k ++ List.replicate z false) =
      if p.chunking.chunkEnd p.width.bits k ≤ k + z then
        some (p.code v % 2 ^ p.chunking.payloadOf k,
          List.replicate (k + z - p.chunking.chunkEnd p.width.bits k) false)
      else none :=
    Chunking.decodeFrom_cut hk z
  split at hd
  · obtain ⟨i, hi, hrest, hle, hlt⟩ := p.valuesAhead_zeros m
      (k + z - p.chunking.chunkEnd p.width.bits k)
    refine .inr ⟨i, hi, ?_, by omega, ?_⟩
    · rw [valuesAhead, hd]
      dsimp only
      rw [hrest, cutValue]
    · intro him
      have hnext := hlt him
      omega
  · next hshort => exact .inl ⟨Nat.lt_of_not_le hshort, valuesAhead_of_none hd _⟩

section Reading

variable (hv : ∀ v ∈ values, p.InRange v) (h : p.CutAt values n front v rest k)
include hv h

/-- The values that are ahead in front of the cut, whatever is behind it. -/
lemma valuesAhead_take_append (m : Nat) (t : Bits) :
    p.valuesAhead m ((p.sequenceBits values).take n ++ t) =
      front.take m ++ p.valuesAhead (m - front.length) ((p.fieldBits v).take k ++ t) := by
  rw [h.take_sequenceBits, List.append_assoc, valuesAhead_append (h.forall_inRange hv).1]

lemma inRange_of_mem_zeroFilled : ∀ u ∈ p.zeroFilled values n, p.InRange u := by
  obtain ⟨hfront, hcut, -⟩ := h.forall_inRange hv
  have hzero : p.InRange 0 := by
    rw [← p.value_zero]
    exact inRange_value (Nat.two_pow_pos _)
  rw [h.zeroFilled_eq, List.forall_mem_append, List.forall_mem_cons]
  refine ⟨hfront, inRange_cutValue hcut k, ?_⟩
  intro u hu
  rwa [List.eq_of_mem_replicate hu]

/-- The right sequence is read exactly if no set bit has been cut off. -/
lemma zeroFilled_eq_iff :
    p.zeroFilled values n = values ↔ ∀ b ∈ (p.sequenceBits values).drop n, b = false := by
  obtain ⟨-, hcut, hrest⟩ := h.forall_inRange hv
  have hsplit : p.zeroFilled values n = values ↔
      p.cutValue v k = v ∧ ∀ u ∈ rest, u = 0 := by
    rw [h.zeroFilled_eq]
    conv_lhs => rhs; rw [h.values_eq]
    rw [List.append_cancel_left_eq, List.cons.injEq, eq_comm (b := rest), List.eq_replicate_iff]
    simp
  rw [hsplit, h.drop_sequenceBits, List.forall_mem_append, cutValue_eq_iff hcut h.lt_length,
    sequenceBits_eq_zero_iff hrest]

end Reading

end Params

/-! ## Decoding -/

/-- A byte of an encoding starts in front of the last bit of the sequence. -/
lemma mul_lt_of_lt_byteCount {n len : Nat} (h : n < byteCount len) : 8 * n < len := by
  unfold byteCount at h
  omega

section Decoding

variable {p : Params} {values front rest : List Int} {v : Int} {n k : Nat}
  (hv : ∀ v ∈ values, p.InRange v) (h : p.CutAt values (8 * n) front v rest k) (w : Width)
include hv h

/-- What is ahead in the first bytes of an encoding. -/
lemma valuesAhead_take_encoding (m : Nat) :
    ∃ z, 8 * n + z = w.bits * wordsNeeded w.bits (8 * n) ∧
      p.valuesAhead m (Bits.pad w.bits (Bytes.toBits
        ((Bytes.ofBits (p.sequenceBits values)).take n))) =
          front.take m ++ p.valuesAhead (m - front.length)
            ((p.fieldBits v).take k ++ List.replicate z false) := by
  have hlen : ((p.sequenceBits values).take (8 * n)).length = 8 * n :=
    List.length_take_of_le h.le_length
  refine ⟨w.bits * wordsNeeded w.bits (8 * n) - 8 * n, ?_, ?_⟩
  · exact Nat.add_sub_of_le (le_mul_wordsNeeded w.bits_pos _)
  · rw [Bytes.toBits_take_ofBits h.le_length, Bits.pad, hlen, Params.valuesAhead_take_append hv h]

/-- From the first bytes of an encoding the first value that runs over the words cannot be read;
if there is none, the bits behind the cut are read as zeros. -/
lemma result_decode_take :
    (∃ i, IsLeast {i | p.RunsOver w values (8 * n) i} i ∧
        (decode p w ((Bytes.ofBits (p.sequenceBits values)).take n) values.length).result =
          .error (.truncated i (some values.length))) ∨
      (∀ i, ¬p.RunsOver w values (8 * n) i) ∧
        (decode p w ((Bytes.ofBits (p.sequenceBits values)).take n) values.length).result =
          .ok (p.zeroFilled values (8 * n)) := by
  have hlen := h.length_eq
  obtain ⟨z, hz, hahead⟩ := valuesAhead_take_encoding hv h w values.length
  have hfront : front.take values.length = front := List.take_of_length_le (by omega)
  have hrest : values.length - front.length = rest.length + 1 := by omega
  rw [hfront, hrest] at hahead
  rw [result_decode_eq_ite, hahead, h.zeroFilled_eq]
  rcases Params.valuesAhead_take_fieldBits h.lt_length rest.length z with
    ⟨hshort, hnone⟩ | ⟨i, hi, hsome, hle, hlt⟩
  · -- the value that is cut has no room
    refine .inl ⟨front.length, h.isLeast_runsOver hz (Nat.zero_le _) (by omega) (by omega), ?_⟩
    rw [hnone, List.append_nil, if_neg (by omega)]
  · -- the value that is cut has room, and `i` zeros behind it
    have hroom : ∀ m ≤ i, p.chunking.chunkEnd p.width.bits k + m * p.chunking.size 0 ≤ k + z := by
      intro m hm
      exact Nat.le_trans (Nat.add_le_add_left (Nat.mul_le_mul_right _ hm) _) hle
    rw [hsome, List.length_append, List.length_cons, List.length_replicate]
    rcases Nat.lt_or_eq_of_le hi with him | rfl
    · refine .inl ⟨front.length + (i + 1), h.isLeast_runsOver hz him (hlt him) ?_, ?_⟩
      · intro m hm
        exact hroom m (Nat.le_of_lt_succ hm)
      · rw [if_neg (by omega)]
    · refine .inr ⟨?_, by rw [if_pos hlen.symm]⟩
      intro x hover
      obtain ⟨m, hm, -, hend⟩ := (h.runsOver_iff hz).mp hover
      exact Nat.not_le.mpr hend (hroom m hm)

/-- From whole words of an encoding the values in front of the cut are read and no other. -/
lemma result_decode_take_words (hw : w.bytes ∣ n) (m : Nat) :
    (decode p w ((Bytes.ofBits (p.sequenceBits values)).take n) m).result =
      if m ≤ front.length then .ok (values.take m)
      else .error (.truncated front.length (some m)) := by
  obtain ⟨z, hz, hahead⟩ := valuesAhead_take_encoding hv h w m
  have hz0 : z = 0 := by
    -- whole words need no zeros
    obtain ⟨d, rfl⟩ := hw
    rw [← Nat.mul_assoc, ← Width.bits, wordsNeeded_mul w.bits_pos] at hz
    omega
  rw [hz0, List.replicate_zero, List.append_nil,
    Params.valuesAhead_of_none (Params.decode_take_fieldBits h.lt_length),
    List.append_nil] at hahead
  rw [result_decode_eq_ite, hahead, List.length_take]
  by_cases hm : m ≤ front.length
  · rw [if_pos hm, if_pos (Nat.min_eq_left hm), h.values_eq, List.take_append_of_le_length hm]
  · rw [if_neg hm, if_neg (by omega), Nat.min_eq_right (by omega)]

end Decoding

/-- **A sequence cut behind a word.**  From whole words that are not all of an encoding, exactly
the values are decoded whose fields end within them; asking for more fails inside the first value
whose field does not, with an error of decoding as long as the number asked for has a decimal
text. -/
theorem decode_take_words (p : Params) {values : List Int} (h : ∀ v ∈ values, p.InRange v)
    (w w' : Width) :
    ∃ data, (encode p w values).result = .ok data ∧
      ∀ m, m * w'.bytes < data.length →
        (∀ n ≤ p.fieldsWithin values (m * w'.bits),
          (decode p w' (data.take (m * w'.bytes)) n).result = .ok (values.take n)) ∧
        ∀ n > p.fieldsWithin values (m * w'.bits),
          FailsInside (decode p w' (data.take (m * w'.bytes)) n).result
            (p.fieldsWithin values (m * w'.bits)) (some n) := by
  refine ⟨_, encode_eq_ok h w, ?_⟩
  intro m hm
  rw [Bytes.length_ofBits] at hm
  obtain ⟨front, v, rest, k, hcut⟩ := Params.exists_cutAt (mul_lt_of_lt_byteCount hm)
  have hbits : m * w'.bits = 8 * (m * w'.bytes) := Nat.mul_left_comm m 8 w'.bytes
  have hresult := result_decode_take_words h hcut w' (Nat.dvd_mul_left _ _)
  rw [hbits, hcut.fieldsWithin_eq]
  constructor
  · intro n hn
    rw [hresult, if_pos hn]
  · intro n hn
    refine failsInside_of_eq ?_ (by simpa using hn.le)
    rw [hresult, if_neg (Nat.not_le.mpr hn)]

/-- Half of the words of three fields, the last of which is cut, and more values asked for than
there were. -/
theorem decode_take_words_three_fields :
    let p : Params := ⟨.w16, 4, false, 0, by decide, by decide⟩
    let values : List Int := [5, 0, 65535]
    (∀ v ∈ values, p.InRange v) ∧
      ∃ data, (encode p .w64 values).result = .ok data ∧
        1 * Width.bytes .w16 < data.length ∧
        (decode p .w16 (data.take (1 * Width.bytes .w16)) 2).result = .ok [5, 0] ∧
        FailsInside (decode p .w16 (data.take (1 * Width.bytes .w16)) 5).result 2 (some 5) := by
  intro p values
  have hv : ∀ v ∈ values, p.InRange v := by decide
  have hdata : (encode p .w64 values).result = .ok [5, 252, 255, 31] := by decide +kernel
  have hfields : p.fieldsWithin values (1 * Width.bits .w16) = 2 := by decide +kernel
  obtain ⟨data, henc, hcut⟩ := decode_take_words p hv .w64 .w16
  rw [hdata, Except.ok.injEq] at henc
  subst henc
  obtain ⟨hfront, hbehind⟩ := hcut 1 (by decide)
  rw [hfields] at hfront hbehind
  exact ⟨hv, _, hdata, by decide, hfront 2 (by decide), hbehind 5 (by decide)⟩

/-- Nothing is left of a field, and a number of values without a decimal text is asked for. -/
theorem decode_take_words_long_count :
    let p : Params := ⟨.w64, 4, false, 0, by decide, by decide⟩
    let values : List Int := [0]
    (∀ v ∈ values, p.InRange v) ∧
      ∃ data, (encode p .w64 values).result = .ok data ∧ 0 * Width.bytes .w64 < data.length ∧
        p.fieldsWithin values (0 * Width.bits .w64) = 0 ∧
        ∃ e, (decode p .w64 (data.take (0 * Width.bytes .w64)) (10 ^ maxDigits : Nat)).result =
          .error e ∧ e.kind ≠ .decoding := by
  intro p values
  have hdata : (encode p .w64 values).result = .ok [0] := by decide +kernel
  obtain ⟨e, he, hkind⟩ := exists_decode_nil_eq_error p .w64
  exact ⟨by decide, _, hdata, by decide, by decide +kernel, e, he, by rw [hkind]; decide⟩

/-- **A sequence cut behind a byte.**  From bytes that are not all of an encoding, the values are
decoded that have zeros in the place of all bits behind the cut, unless one of these runs over the
words that are there: the first one that does is then reported as missing.  All values decoded
are within the bounds, and they are those of the sequence exactly if no set bit has been cut off.
Behind whole words it is always the value that is cut which is reported. -/
theorem decode_take (p : Params) {values : List Int} (h : ∀ v ∈ values, p.InRange v)
    (w w' : Width) :
    ∃ data, (encode p w values).result = .ok data ∧
      ∀ n < data.length,
        ((∃ i, IsLeast {i | p.RunsOver w' values (8 * n) i} i ∧
            (decode p w' (data.take n) values.length).result =
              .error (.truncated i (some values.length))) ∨
          (∀ i, ¬p.RunsOver w' values (8 * n) i) ∧
            (decode p w' (data.take n) values.length).result =
              .ok (p.zeroFilled values (8 * n))) ∧
        (∀ v ∈ p.zeroFilled values (8 * n), p.InRange v) ∧
        (p.zeroFilled values (8 * n) = values ↔
          ∀ b ∈ (p.sequenceBits values).drop (8 * n), b = false) ∧
        (w'.bytes ∣ n →
          (decode p w' (data.take n) values.length).result =
            .error (.truncated (p.fieldsWithin values (8 * n)) (some values.length))) := by
  refine ⟨_, encode_eq_ok h w, ?_⟩
  intro n hn
  rw [Bytes.length_ofBits] at hn
  obtain ⟨front, v, rest, k, hcut⟩ := Params.exists_cutAt (mul_lt_of_lt_byteCount hn)
  have hlen := hcut.length_eq
  refine ⟨result_decode_take h hcut w', Params.inRange_of_mem_zeroFilled h hcut,
    Params.zeroFilled_eq_iff h hcut, ?_⟩
  intro hw
  rw [result_decode_take_words h hcut w' hw, hcut.fieldsWithin_eq, if_neg (by omega)]

/-- Two of the four bytes of three fields, completed to a word of 64 bits: zeros make 31 of the
third value. -/
theorem decode_take_three_fields :
    let p : Params := ⟨.w16, 4, false, 0, by decide, by decide⟩
    let values : List Int := [5, 0, 65535]
    (∀ v ∈ values, p.InRange v) ∧
      ∃ data, (encode p .w16 values).result = .ok data ∧ 2 < data.length ∧
        (∀ i, ¬p.RunsOver .w64 values 16 i) ∧
        (decode p .w64 (data.take 2) values.length).result = .ok [5, 0, 31] := by
  intro p values
  have hv : ∀ v ∈ values, p.InRange v := by decide
  have hdata : (encode p .w16 values).result = .ok [5, 252, 255, 31] := by decide +kernel
  have hfilled : p.zeroFilled values (8 * 2) = [5, 0, 31] := by decide +kernel
  have hroom : ∀ i < values.length, ¬p.RunsOver .w64 values (8 * 2) i := by decide +kernel
  obtain ⟨data, henc, hcut⟩ := decode_take p hv .w16 .w64
  rw [hdata, Except.ok.injEq] at henc
  subst henc
  obtain ⟨⟨i, hi, -⟩ | ⟨hnone, hread⟩, -⟩ := hcut 2 (by decide)
  · exact absurd hi.1 (hroom i hi.1.2.1)
  · rw [hfilled] at hread
    exact ⟨hv, _, hdata, by decide, hnone, hread⟩

/-- The lower byte of a field of 16 bits, completed to a word of 64 bits, is read as another
value: neither is anything reported as missing nor does the value come back. -/
theorem decode_take_other_value :
    let p : Params := ⟨.w16, 16, false, 0, by decide, by decide⟩
    let values : List Int := [4660]
    (∀ v ∈ values, p.InRange v) ∧
      ∃ data, (encode p .w64 values).result = .ok data ∧ 1 < data.length ∧
        (decode p .w64 (data.take 1) values.length).result = .ok [52] ∧
        ¬((∃ i n, (decode p .w64 (data.take 1) values.length).result = .error (.truncated i n)) ∨
          (decode p .w64 (data.take 1) values.length).result = .ok values) := by
  intro p values
  have hdata : (encode p .w64 values).result = .ok [0x34, 0x12] := by decide +kernel
  have hread : (decode p .w64 (List.take 1 [0x34, 0x12]) values.length).result = .ok [52] := by
    decide +kernel
  refine ⟨by decide, _, hdata, by decide, hread, ?_⟩
  rw [hread]
  rintro (⟨i, n, herror⟩ | hvalues)
  · simp at herror
  · simp [values] at hvalues

end BitPack
