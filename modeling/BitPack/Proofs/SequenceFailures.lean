/-
# How sequences fail

Every layer below the sequences has checks of its own, but the bounds of the values leave nothing
for them to refuse: encoding fails only at the first value out of bounds, and decoding only where
the data ends inside a value (`sequence_failures`).  So any data, also such that encodes nothing,
holds some number of values, all within the bounds.  Decoding gives as many of them as it is asked
for, and if it is asked for more, it names their number (`decode_threshold`).  The values cannot
be many, for each one takes up a chunk with its signal bit, or the width
(`Params.ReadsOff.mul_le`).  What is named has to be shown in decimal.  A number that is too long
for that makes the error one of the contract (`Params.NamesFirst`, `FailsInside`).
-/
import BitPack.Proofs.Sizes
import BitPack.Proofs.Spelling
import BitPack.Proofs.Stopping

namespace BitPack

open Text.Numeral (maxDigits)

namespace Params

variable {p : Params} {t rest : Bits} {vs : List Int}

/-! ## The values in a run -/

lemma ReadsOff.inRange (h : p.ReadsOff t vs rest) : ∀ v ∈ vs, p.InRange v := by
  induction h with
  | nil t => simp
  | cons hd _ ih =>
    have hlt := Chunking.lt_of_decodeFrom hd
    exact List.forall_mem_cons.mpr ⟨inRange_value hlt, ih⟩

/-- Values can be read off a run until it ends inside a field. -/
lemma exists_readsOff_end (p : Params) (t : Bits) :
    ∃ vs rest, p.ReadsOff t vs rest ∧ p.chunking.decode rest = none := by
  induction hm : t.length using Nat.strongRecOn generalizing t with
  | _ m ih =>
    rcases hd : p.chunking.decode t with _ | ⟨u, mid⟩
    · exact ⟨[], t, .nil t, hd⟩
    · have hw := p.chunking.width.bits_pos
      have hlen := Chunking.min_add_length_le_of_decode hd
      obtain ⟨vs, rest, hvs, hnone⟩ := ih mid.length (by omega) mid rfl
      exact ⟨_, rest, .cons hd hvs, hnone⟩

end Params

/-- Decoding reads values off up to the number asked for, or names the number of those there are. -/
lemma Params.ReadsOff.result_decode {p : Params} {w : Width} {data : Bytes} {vs : List Int}
    {rest : Bits} (h : p.ReadsOff (Bits.pad w.bits (Bytes.toBits data)) vs rest)
    (hnone : p.chunking.decode rest = none) (n : Nat) :
    (decode p w data n).result =
      if n ≤ vs.length then .ok (vs.take n) else .error (.truncated vs.length (some n)) := by
  rw [result_decode_eq_ite, h.valuesAhead_eq_take hnone, List.length_take]
  split_ifs with hlen hle hle
  · rfl
  · omega
  · omega
  · rw [Nat.min_eq_right (by omega)]

/-- **Sequences fail only as they say.**  With any parameters and words of any size, a sequence is
encoded exactly if all its values are within the bounds.  Otherwise the error names the first one
that is not.  Decoding any data, whether all values or a number of them, fails, if it does, inside
a value whose index is named, never in the layers below.  What is raised is an error of encoding
or of decoding as long as the numbers that are named have decimal texts. -/
theorem sequence_failures (p : Params) (w : Width) :
    (∀ values,
      match (encodeToWriter p w values).result with
      | .ok wr =>
        (∀ v ∈ values, p.InRange v) ∧ (encode p w values).result = .ok wr.bytes
      | .error e => p.NamesFirst values e ∧ (encode p w values).result = .error e) ∧
    ∀ data,
      (∀ n : Nat, (∃ values, (decode p w data n).result = .ok values) ∨
        ∃ i < n, FailsInside (decode p w data n).result i (some n)) ∧
      ((∃ values, (decodeAll p w data).result = .ok values) ∨
        ∃ i, FailsInside (decodeAll p w data).result i none) := by
  refine ⟨?_, ?_⟩
  · intro values
    by_cases h : ∀ v ∈ values, p.InRange v
    · obtain ⟨wr, hresult, hholds⟩ := encodeToWriter_eq_ok h w
      rw [hresult]
      exact ⟨h, by rw [encode_eq_ok h, Writer.bytes_of_holds hholds]⟩
    · obtain ⟨front, v, rest, rfl, hfront, hv⟩ := Params.exists_first_not_inRange h
      rw [encodeToWriter_eq_error hfront hv]
      exact ⟨Params.namesFirst hfront hv rest, encode_eq_error hfront hv w rest⟩
  · intro data
    refine ⟨?_, ?_⟩
    · intro n
      obtain ⟨vs, rest, hvs, hnone⟩ :=
        p.exists_readsOff_end (Bits.pad w.bits (Bytes.toBits data))
      have hresult := hvs.result_decode hnone n
      by_cases hle : n ≤ vs.length
      · rw [if_pos hle] at hresult
        exact .inl ⟨_, hresult⟩
      · rw [if_neg hle] at hresult
        exact .inr ⟨vs.length, by omega, failsInside_of_eq hresult (by simpa using by omega)⟩
    · rcases result_decodeAll_cases p w data with
        ⟨vs, _, -, -, -, hresult⟩ | ⟨vs, _, -, -, hresult⟩
      · exact .inl ⟨vs, hresult⟩
      · exact .inr ⟨vs.length, failsInside_of_eq hresult (by simp)⟩

/-- A value without a decimal text, and as many values asked of no data, are errors of neither
encoding nor decoding. -/
theorem sequence_failures_long_numbers :
    let p : Params := ⟨.w64, 4, false, 0, by decide, by decide⟩
    (∃ e, (encode p .w64 [(10 ^ maxDigits : Nat)]).result = .error e ∧ e.kind ≠ .encoding) ∧
      ∃ e, (decode p .w64 [] (10 ^ maxDigits : Nat)).result = .error e ∧ e.kind ≠ .decoding := by
  intro p
  obtain ⟨e, he, hkind⟩ := exists_encode_pow_maxDigits_eq_error .w64 p
  obtain ⟨e', he', hkind'⟩ := exists_decode_nil_eq_error p .w64
  exact ⟨⟨e, he, by rw [hkind]; decide⟩, e', he', by rw [hkind']; decide⟩

/-- **Decoding has a threshold.**  Any data holds some values, all within the bounds and not more
than have room in its words.  Decoding up to as many gives the first of them.  Asking for more fails
inside the value that their number is the index of, however many are asked for, with an error of
decoding as long as the number asked for has a decimal text.  A negative number is an error of the
contract. -/
theorem decode_threshold (p : Params) (w : Width) (data : Bytes) :
    ∃ values : List Int,
      values.length * min (p.chunkLength + 1) p.width.bits ≤ (Reader.ofBytes w data).capacity ∧
      (∀ v ∈ values, p.InRange v) ∧
      (∀ n ≤ values.length, (decode p w data n).result = .ok (values.take n)) ∧
      (∀ n > values.length, FailsInside (decode p w data n).result values.length (some n)) ∧
      ∀ count : Int, count < 0 →
        ∃ e, (decode p w data count).result = .error e ∧ e = .negativeCount count ∧
          e.kind = .contract := by
  obtain ⟨values, rest, hvalues, hnone⟩ :=
    p.exists_readsOff_end (Bits.pad w.bits (Bytes.toBits data))
  refine ⟨values, ?_, hvalues.inRange, ?_, ?_, ?_⟩
  · have hroom := hvalues.mul_le
    rw [← Reader.bits_ofBytes, Reader.length_bits] at hroom
    omega
  · intro n hn
    rw [hvalues.result_decode hnone, if_pos hn]
  · intro n hn
    refine failsInside_of_eq ?_ (by simpa using hn.le)
    rw [hvalues.result_decode hnone, if_neg (Nat.not_le.mpr hn)]
  · intro count hneg
    exact ⟨_, result_decode_of_neg p w data hneg, rfl, Error.kind_eq_contract rfl⟩

/-- No value is in no data, and a number of values without a decimal text is asked for. -/
theorem decode_threshold_long_count :
    let p : Params := ⟨.w64, 4, false, 0, by decide, by decide⟩
    (Reader.ofBytes .w64 []).capacity = 0 ∧
      ∃ e, (decode p .w64 [] (10 ^ maxDigits : Nat)).result = .error e ∧ e.kind ≠ .decoding := by
  intro p
  obtain ⟨e, he, hkind⟩ := exists_decode_nil_eq_error p .w64
  exact ⟨by decide +kernel, e, he, by rw [hkind]; decide⟩

end BitPack
