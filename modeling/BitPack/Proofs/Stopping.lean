/-
# Where decoding stops

Decoding a given number of values and decoding all of them read the same fields off the front of
the data (`Params.ReadsOff`) and differ in where they stop.  The one stops behind as many fields
as it was asked for.  The other stops at the soft end of the reader, where no set bit is left,
and that may be in front of further zeros.  Only where the data ends inside a field do they stop
for the same reason, and so at the same index.  All this holds of any bytes, also of such that
encode nothing (`decodeAll_agrees_decode`).
-/
import BitPack.Proofs.DecodingLoop

namespace BitPack

open Text.Numeral (maxDigits)

/-! ## Fields at the front of a run -/

namespace Params.ReadsOff

variable {p : Params} {t rest : Bits} {vs : List Int}

/-- If the rest ends inside a field, no more values are ahead than those read off. -/
lemma valuesAhead_eq_take (h : p.ReadsOff t vs rest) (hnone : p.chunking.decode rest = none)
    (n : Nat) : p.valuesAhead n t = vs.take n := by
  rw [h.valuesAhead_eq, valuesAhead_of_none hnone, List.append_nil]

lemma valuesAhead_of_le (h : p.ReadsOff t vs rest) (hnone : p.chunking.decode rest = none)
    {n : Nat} (hn : vs.length ≤ n) : p.valuesAhead n t = vs := by
  rw [h.valuesAhead_eq_take hnone, List.take_of_length_le hn]

/-- Reading a field for each value takes the fields and leaves the rest ahead. -/
lemma mapM_readField {base r : Reader} (hfit : base.Fits) (h : p.ReadsOff t vs rest)
    (hr : Reader.Ahead base r t) :
    ∃ r', (vs.mapM fun _ => p.readField).run r = .ok (vs.map .value) r' ∧
      Reader.Ahead base r' rest := by
  induction h generalizing r with
  | nil t => exact ⟨r, rfl, hr⟩
  | cons hd _ ih =>
    obtain ⟨r₁, hrun₁, hr₁⟩ := readField_of_some hfit hd hr
    obtain ⟨r', hrun, hr'⟩ := ih hr₁
    refine ⟨r', ?_, hr'⟩
    rw [List.mapM_cons, EStateM.run_bind, hrun₁]
    dsimp only
    rw [EStateM.run_bind, hrun]
    rfl

end Params.ReadsOff

/-! ## Decoding all values -/

/-- From any data all fields are decoded up to the soft end, or up to one inside which the data
ends. -/
lemma result_decodeAll_cases (p : Params) (w : Width) (data : Bytes) :
    (∃ vs rest, p.ReadsOff (Bits.pad w.bits (Bytes.toBits data)) vs rest ∧
        rest.length ≤ w.bits ∧ (∀ b ∈ rest, b = false) ∧
        (decodeAll p w data).result = .ok vs) ∨
      ∃ vs rest, p.ReadsOff (Bits.pad w.bits (Bytes.toBits data)) vs rest ∧
        p.chunking.decode rest = none ∧
        (decodeAll p w data).result = .error (.truncated vs.length none) := by
  have hfit := Reader.fits_ofBytes w data
  obtain ⟨vs, r, hreach, hend⟩ := Params.endsAs_decodeAllFrom (p := p) hfit rfl .start
  obtain ⟨hvs, hahead⟩ := hreach.readsOff hfit rfl
  rw [Reader.bits_ofBytes] at hvs
  rw [result_decodeAll]
  rcases hend with ⟨hstop, hd⟩ | ⟨-, r', hinside, hd⟩
  · have hsoft : r.onlyZeroesLeft = true := Params.not_goesOn_none_iff.mp hstop
    obtain ⟨hword, hzeros⟩ := (Reader.onlyZeroesLeft_iff hfit hahead).mp hsoft
    exact .inl ⟨vs, r.ahead, hvs, hword, hzeros, congrArg Traced.result hd⟩
  · exact .inr ⟨vs, r.ahead, hvs, hinside.decode_eq_none hfit hahead, congrArg Traced.result hd⟩

/-- **Both ways of decoding see the same values.**  If all values of some data are decoded,
decoding as many gives the same ones, and behind the fields of these no bit of the words is set.
If instead the data ends inside a value, the values in front of it are decoded when just as many
are asked for, and asking for more fails inside the value of the same index. -/
theorem decodeAll_agrees_decode (p : Params) (w : Width) (data : Bytes) :
    match (decodeAll p w data).result with
    | .ok vs =>
      (decode p w data vs.length).result = .ok vs ∧
        ∃ r, (vs.mapM fun _ => p.readField).run (Reader.ofBytes w data) =
            .ok (vs.map .value) r ∧
          ∀ b ∈ (Bits.pad w.bits (Bytes.toBits data)).drop r.position, b = false
    | .error e =>
      ∃ i, FailsInside (.error e) i none ∧
        (∃ vs, vs.length = i ∧ (decode p w data i).result = .ok vs) ∧
        ∀ n > i, FailsInside (decode p w data n).result i (some n) := by
  rcases result_decodeAll_cases p w data with
    ⟨vs, rest, hvs, -, hzeros, hresult⟩ | ⟨vs, rest, hvs, hnone, hresult⟩
  · rw [hresult]
    obtain ⟨r, hrun, hr⟩ :=
      hvs.mapM_readField (Reader.fits_ofBytes w data) (Reader.ahead_ofBytes w data)
    refine ⟨?_, r, hrun, ?_⟩
    · rw [result_decode_eq_ite, hvs.valuesAhead_length, if_pos rfl]
    · have hdrop := hr.drop_eq
      rw [Reader.bits, hr.wordSize_eq, hr.words_eq, ← Reader.bits, Reader.bits_ofBytes] at hdrop
      rwa [hdrop]
  · rw [hresult]
    refine ⟨vs.length, failsInside_of_eq rfl (by simp), ⟨vs, rfl, ?_⟩, ?_⟩
    · rw [result_decode_eq_ite, hvs.valuesAhead_length, if_pos rfl]
    · intro n hn
      refine failsInside_of_eq ?_ (by simpa using hn.le)
      rw [result_decode_eq_ite, hvs.valuesAhead_of_le hnone (Nat.le_of_lt hn), if_neg (by omega)]

/-- All values of a byte end inside its first one, and a number of values without a decimal text is
asked for. -/
theorem decodeAll_agrees_decode_long_count :
    let p : Params := ⟨.w64, 4, false, 0, by decide, by decide⟩
    (decodeAll p .w8 [255]).result = .error (.truncated 0 none) ∧
      ∃ e, (decode p .w8 [255] (10 ^ maxDigits : Nat)).result = .error e ∧ e.kind ≠ .decoding := by
  intro p
  obtain ⟨e, he, hkind⟩ := exists_decode_pow_maxDigits_eq_error p .w8 [255] (by decide +kernel)
  exact ⟨by decide +kernel, e, he, by rw [hkind]; decide⟩

end BitPack
