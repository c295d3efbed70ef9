/-
# Sizes without writing

The size of a field is computed by a loop of its own and its value is checked in another way than
by the encoder: a signed value is folded first, in the 64-bit range of block zigzag, and only its
code has to fit the width.  Both come to the same.  A size is that of the bits which are written
(`unsignedSize_eq_map_length`), and just the values within the bounds have one
(`Params.fieldSize_eq_ok_iff`), so sizes and encodings of a sequence agree, also about what they
refuse (`sizeInBits_agrees_encode`).
-/
import BitPack.Sizing
import BitPack.Proofs.Sequences

namespace BitPack

open Text.Numeral (maxDigits)

/-! ## The size of a field -/

/-- The size of an unsigned field is that of the bits which are written, and it is refused with the
same error. -/
lemma unsignedSize_eq_map_length (value chunkLength width : Int) :
    unsignedSize value chunkLength width =
      (WriteRequest.unsigned value chunkLength width).stream.map List.length := by
  rw [unsignedSize, WriteRequest.stream]
  rcases Chunking.ofInts chunkLength width with e | c
  · rfl
  · rcases checkUnsigned value width with e | n
    · rfl
    · exact congrArg Except.ok (c.length_encode n).symm

lemma failsAs_unsignedSize (value chunkLength width : Int) :
    FailsAs (unsignedSize value chunkLength width) .contract :=
  failsAs_bind (failsAs_ofInts _ _) fun _ =>
    failsAs_bind (failsAs_checkUnsigned _ _) fun _ => failsAs_ok _

lemma unsignedSize_eq_ok_iff {c : Chunking} {value : Int} {n : Nat} :
    unsignedSize value c.length c.width.bits = .ok n ↔
      ∃ u : Nat, value = u ∧ u < 2 ^ c.width.bits ∧ c.size u = n := by
  rw [unsignedSize, Chunking.ofInts_self]
  change (checkUnsigned value c.width.bits >>= fun u => .ok (c.size u)) = .ok n ↔ _
  simp only [Except.bind_eq_ok_iff, checkUnsigned_eq_ok_iff, Except.ok.injEq, and_assoc]

lemma Zigzag.eq_fold_of_encodeBlocks {v : Int} {k u : Nat} (h : encodeBlocks v k = .ok u) :
    u = fold k v := by
  obtain ⟨_, -, h⟩ := Except.bind_eq_ok_iff.mp h
  obtain ⟨n, hn, h⟩ := Except.bind_eq_ok_iff.mp h
  unfold checkExponent at hn
  split at hn
  · obtain rfl : k = n := by simpa using hn
    exact (Except.ok.inj h).symm
  · simp at hn

/-- On any faithful destination an unsigned field takes as many bits as predicted, and what has
no size is refused with the same error. -/
lemma BitSink.run_writeUnsigned {σ : Type} [BitSink σ] {R : σ → Bits → Prop} (hR : Faithful R)
    {s : σ} {t : Bits} (h : R s t) (value chunkLength width : Int) :
    match unsignedSize value chunkLength width with
    | .error e => (writeUnsigned value chunkLength width).run s = .error e s
    | .ok n =>
      ∃ s' u, (writeUnsigned value chunkLength width).run s = .ok () s' ∧
        R s' (t ++ u) ∧ u.length = n := by
  have hwrite := appends_writeUnsigned hR h value chunkLength width
  rw [unsignedSize_eq_map_length]
  rcases hstream : (WriteRequest.unsigned value chunkLength width).stream with e | u
  · rwa [hstream] at hwrite
  · rw [hstream] at hwrite
    obtain ⟨s', hrun, h'⟩ := hwrite
    exact ⟨s', u, hrun, h', rfl⟩

namespace Params

variable {p : Params} {v : Int} {n : Nat}

/-- Just the values within the bounds have a size, that of their field. -/
lemma fieldSize_eq_ok_iff : p.fieldSize v = .ok n ↔ p.InRange v ∧ (p.fieldBits v).length = n := by
  have hunsigned : ∀ value : Int, unsignedSize value p.chunkLength p.width.bits = .ok n ↔
      ∃ u : Nat, value = u ∧ u < 2 ^ p.width.bits ∧ p.chunking.size u = n :=
    fun _ => unsignedSize_eq_ok_iff (c := p.chunking)
  rw [inRange_iff, fieldBits, Chunking.length_encode]
  unfold fieldSize value code
  split
  · -- a code that fits the width comes from a value in the range of block zigzag
    simp only [Zigzag.unfold_fold, true_and]
    constructor
    · intro h
      obtain ⟨u, hu, h⟩ := Except.bind_eq_ok_iff.mp h
      obtain rfl := Zigzag.eq_fold_of_encodeBlocks hu
      simpa using (hunsigned _).mp h
    · rintro ⟨hlt, rfl⟩
      have hmag := (Zigzag.fold_lt_iff p.zigzagExponent_lt v).mp hlt
      rw [Zigzag.encodeBlocks_eq_ok p.zigzagExponent_lt hmag]
      exact (hunsigned _).mpr ⟨_, rfl, hlt, rfl⟩
  · rw [hunsigned]
    constructor
    · rintro ⟨u, rfl, hlt, rfl⟩
      simpa using hlt
    · rintro ⟨⟨hvalue, hlt⟩, rfl⟩
      exact ⟨v.toNat, hvalue.symm, hlt, rfl⟩

lemma failsAs_fieldSize (p : Params) (v : Int) : FailsAs (p.fieldSize v) .contract := by
  unfold fieldSize
  split
  · exact failsAs_bind (failsAs_encodeBlocks _ _) fun _ => failsAs_unsignedSize _ _ _
  · exact failsAs_unsignedSize _ _ _

/-! ## The size of a sequence -/

/-- Just the sequences of values within the bounds have a size, that of their bits. -/
lemma sizeInBits_eq_ok_iff {values : List Int} :
    p.sizeInBits values = .ok n ↔
      (∀ v ∈ values, p.InRange v) ∧ (p.sequenceBits values).length = n := by
  induction values generalizing n with
  | nil => simp [sizeInBits]
  | cons v vs ih =>
    rw [sequenceBits_cons, List.length_append, List.forall_mem_cons]
    simp only [sizeInBits, Except.bind_eq_ok_iff, fieldSize_eq_ok_iff, ih]
    constructor
    · rintro ⟨m, ⟨hv, rfl⟩, l, ⟨hvs, rfl⟩, hn⟩
      exact ⟨⟨hv, hvs⟩, Except.ok.inj hn⟩
    · rintro ⟨⟨hv, hvs⟩, rfl⟩
      exact ⟨_, ⟨hv, rfl⟩, _, ⟨hvs, rfl⟩, rfl⟩

lemma failsAs_sizeInBits (p : Params) (values : List Int) :
    FailsAs (p.sizeInBits values) .contract := by
  induction values with
  | nil => exact failsAs_ok 0
  | cons v vs ih =>
    exact failsAs_bind (p.failsAs_fieldSize v) fun _ => failsAs_bind ih fun _ => failsAs_ok _

/-- A value out of bounds stands behind others within them. -/
lemma exists_first_not_inRange {values : List Int} (h : ¬∀ v ∈ values, p.InRange v) :
    ∃ front v rest, values = front ++ v :: rest ∧ (∀ u ∈ front, p.InRange u) ∧ ¬p.InRange v := by
  rcases hfind : values.find? fun v => ¬p.InRange v with _ | v
  · rw [List.find?_eq_none] at hfind
    exact absurd (by simpa using hfind) h
  · obtain ⟨hv, front, rest, hvalues, hfront⟩ := List.find?_eq_some_iff_append.mp hfind
    exact ⟨front, v, rest, hvalues, by simpa using hfront, by simpa using hv⟩

/-! ## The first value out of bounds -/

/-- The bounds of a field have decimal texts. -/
lemma natAbs_lt_pow_maxDigits (p : Params) :
    p.minValue.natAbs < 10 ^ maxDigits ∧ p.maxValue.natAbs < 10 ^ maxDigits ∧
      p.width.bits < 10 ^ maxDigits := by
  have hpow : 10 ^ 20 ≤ 10 ^ maxDigits := Nat.pow_le_pow_right (by decide) (by decide)
  have hbounds : p.minValue.natAbs < 10 ^ 20 ∧ p.maxValue.natAbs < 10 ^ 20 ∧
      p.width.bits < 10 ^ 20 := by
    unfold minValue maxValue
    cases p.width <;> cases p.signed <;> decide
  omega

/-- Beside the bounds, the text of the error shows the value and its index. -/
lemma kind_outOfBounds (p : Params) (v : Int) (index : Nat) :
    (Error.outOfBounds v index p.minValue p.maxValue p.width.bits).kind =
      if v.natAbs < 10 ^ maxDigits ∧ index < 10 ^ maxDigits then .encoding else .contract := by
  obtain ⟨hmin, hmax, hwidth⟩ := p.natAbs_lt_pow_maxDigits
  have hprint : (Error.outOfBounds v index p.minValue p.maxValue p.width.bits).Printable ↔
      v.natAbs < 10 ^ maxDigits ∧ index < 10 ^ maxDigits := by
    simp [Error.Printable, Error.numbers, hmin, hmax, hwidth]
  simp only [Error.kind, hprint, Error.subject]

/-- The error names the first value that is out of bounds.  It is one of encoding as long as the
value and its index have decimal texts. -/
def NamesFirst (p : Params) (values : List Int) (e : Error) : Prop :=
  ∃ front v rest, values = front ++ v :: rest ∧ (∀ u ∈ front, p.InRange u) ∧ ¬p.InRange v ∧
    e = .outOfBounds v front.length p.minValue p.maxValue p.width.bits ∧
    e.kind = if v.natAbs < 10 ^ maxDigits ∧ front.length < 10 ^ maxDigits then .encoding
      else .contract

lemma namesFirst {p : Params} {front : List Int} {v : Int} (hfront : ∀ u ∈ front, p.InRange u)
    (hv : ¬p.InRange v) (rest : List Int) :
    p.NamesFirst (front ++ v :: rest)
      (.outOfBounds v front.length p.minValue p.maxValue p.width.bits) :=
  ⟨front, v, rest, rfl, hfront, hv, rfl, p.kind_outOfBounds v front.length⟩

lemma not_inRange_pow_maxDigits (p : Params) : ¬p.InRange (10 ^ maxDigits : Nat) := by
  obtain ⟨-, hmax, -⟩ := p.natAbs_lt_pow_maxDigits
  rintro ⟨-, hle⟩
  omega

end Params

/-! ## The greatest size -/

/-- A signal bit follows every full chunk in front of the last one. -/
lemma Chunking.sizeFrom_le (c : Chunking) {left : Nat} (h : 0 < left) (value : Nat) :
    c.sizeFrom left value ≤ left + (left - 1) / c.length := by
  have hc := c.length_pos
  fun_induction sizeFrom c left value with
  | case1 left value hlast => exact Nat.le_add_right left _
  | case2 left value hmore _ _ =>
    have hone : 1 ≤ (left - 1) / c.length := (Nat.le_div_iff_mul_le hc).mpr (by omega)
    omega
  | case3 left value hmore _ _ ih =>
    have hrest := ih (by omega)
    have hdiv := pred_div_length hmore
    omega

namespace Params

lemma length_fieldBits_le (p : Params) (v : Int) : (p.fieldBits v).length ≤ p.maxBits := by
  rw [fieldBits, Chunking.length_encode]
  exact p.chunking.sizeFrom_le p.width.bits_pos _

lemma length_sequenceBits_le (p : Params) (values : List Int) :
    (p.sequenceBits values).length ≤ p.maxBits * values.length := by
  induction values with
  | nil => exact Nat.zero_le _
  | cons v vs ih =>
    have hv := p.length_fieldBits_le v
    rw [sequenceBits_cons, List.length_append, List.length_cons, Nat.mul_succ]
    omega

end Params

section Encoding

variable {p : Params} {values : List Int} (w : Width)

/-- A sequence with a value out of bounds is not encoded. -/
lemma exists_encode_eq_error (h : ¬∀ v ∈ values, p.InRange v) :
    ∃ e, p.NamesFirst values e ∧ (encodeToWriter p w values).result = .error e ∧
      (encode p w values).result = .error e := by
  obtain ⟨front, v, rest, rfl, hfront, hv⟩ := Params.exists_first_not_inRange h
  exact ⟨_, Params.namesFirst hfront hv rest, encodeToWriter_eq_error hfront hv w rest,
    encode_eq_error hfront hv w rest⟩

/-- Encoding a value that has no decimal text is an error of the contract. -/
lemma exists_encode_pow_maxDigits_eq_error (p : Params) :
    ∃ e, (encode p w [(10 ^ maxDigits : Nat)]).result = .error e ∧ e.kind = .contract := by
  have hfront : ∀ u ∈ ([] : List Int), p.InRange u := by simp
  refine ⟨_, encode_eq_error hfront p.not_inRange_pow_maxDigits w [], ?_⟩
  rw [p.kind_outOfBounds, Int.natAbs_natCast, if_neg (fun h => Nat.lt_irrefl _ h.1)]

/-- A sequence without a size is not encoded. -/
lemma encode_of_sizeInBits_eq_error {e : Error} (h : p.sizeInBits values = .error e) :
    (∃ v ∈ values, ¬p.InRange v) ∧
      ∃ e', p.NamesFirst values e' ∧ (encodeToWriter p w values).result = .error e' ∧
        (encode p w values).result = .error e' := by
  have hnone : ¬∀ v ∈ values, p.InRange v := by
    intro hv
    rw [Params.sizeInBits_eq_ok_iff.mpr ⟨hv, rfl⟩] at h
    cases h
  exact ⟨by simpa using hnone, exists_encode_eq_error w hnone⟩

/-- A sequence with a size is encoded in as many bits and in as many bytes as these need. -/
lemma encode_of_sizeInBits_eq_ok {n : Nat} (h : p.sizeInBits values = .ok n) :
    (∀ v ∈ values, p.InRange v) ∧
      ∃ wr data, (encodeToWriter p w values).result = .ok wr ∧
        (encode p w values).result = .ok data ∧ wr.bitLength = n ∧
        p.sizeInBytes values = .ok data.length ∧ BitSink.byteLength wr = data.length := by
  obtain ⟨hv, rfl⟩ := Params.sizeInBits_eq_ok_iff.mp h
  obtain ⟨wr, hresult, hholds⟩ := encodeToWriter_eq_ok hv w
  refine ⟨hv, wr, _, hresult, encode_eq_ok hv w, hholds.bitLength_eq, ?_, ?_⟩
  · rw [Params.sizeInBytes, h, Bytes.length_ofBits]
    rfl
  · rw [Bytes.length_ofBits, ← hholds.bitLength_eq]
    rfl

end Encoding

/-- **Sizes agree with encodings.**  A sequence has no size exactly if some value is out of bounds,
which is an error of the arguments, and just then it is not encoded either; that the first such
value is named is an error of encoding only if it has a decimal text.  Otherwise the sequence is
encoded in words of any size, in as many bits and bytes as predicted.  Likewise for a single
unsigned field, whatever the arguments and the writes before it are: it has no size exactly if it
is refused, with the same error, and otherwise it appends as many bits as predicted. -/
theorem sizeInBits_agrees_encode (p : Params) :
    (∀ values w,
      match p.sizeInBits values with
      | .error e =>
        e.kind = .contract ∧ (∃ v ∈ values, ¬p.InRange v) ∧
          ∃ e', p.NamesFirst values e' ∧ (encodeToWriter p w values).result = .error e' ∧
            (encode p w values).result = .error e'
      | .ok n =>
        (∀ v ∈ values, p.InRange v) ∧
          ∃ wr data, (encodeToWriter p w values).result = .ok wr ∧
            (encode p w values).result = .ok data ∧ wr.bitLength = n ∧
            p.sizeInBytes values = .ok data.length ∧ BitSink.byteLength wr = data.length) ∧
      ∀ value chunkLength width w qs,
        let wr := (WriteRequest.attempts qs (Writer.empty w)).2
        match unsignedSize value chunkLength width with
        | .error e => (BitSink.writeUnsigned value chunkLength width).run wr = .error e wr
        | .ok n =>
          ∃ wr' u, (BitSink.writeUnsigned value chunkLength width).run wr = .ok () wr' ∧
            wr'.bitLength = wr.bitLength + n ∧ wr'.contents = wr.contents ++ u ∧ u.length = n := by
  refine ⟨?_, ?_⟩
  · intro values w
    split
    · next e he =>
      exact ⟨Error.kind_eq_contract (p.failsAs_sizeInBits _ e he),
        encode_of_sizeInBits_eq_error w he⟩
    · next n hn => exact encode_of_sizeInBits_eq_ok w hn
  · intro value chunkLength width w qs wr
    have hholds : Writer.Holds w wr (WriteRequest.streams qs) := Writer.holds_attempts w qs
    have hrun := BitSink.run_writeUnsigned (Writer.faithful w) hholds value chunkLength width
    split
    · next e he => rwa [he] at hrun
    · next n hn =>
      rw [hn] at hrun
      obtain ⟨wr', u, hrun, hholds', rfl⟩ := hrun
      refine ⟨wr', u, hrun, ?_, ?_, rfl⟩
      · rw [hholds'.bitLength_eq, hholds.bitLength_eq, List.length_append]
      · rw [Writer.contents_of_holds hholds', Writer.contents_of_holds hholds]

/-- A value without a decimal text has no size either, but is not refused by an error of
encoding. -/
theorem sizeInBits_agrees_encode_long_value :
    let p : Params := ⟨.w64, 4, false, 0, by decide, by decide⟩
    ¬p.InRange (10 ^ maxDigits : Nat) ∧
      (∃ e, p.sizeInBits [(10 ^ maxDigits : Nat)] = .error e ∧ e.kind = .contract) ∧
      ∃ e, (encode p .w64 [(10 ^ maxDigits : Nat)]).result = .error e ∧ e.kind ≠ .encoding := by
  intro p
  refine ⟨p.not_inRange_pow_maxDigits, ?_, ?_⟩
  · rcases hsize : p.sizeInBits [(10 ^ maxDigits : Nat)] with e | n
    · exact ⟨e, rfl, Error.kind_eq_contract (p.failsAs_sizeInBits _ e hsize)⟩
    · have hv := (Params.sizeInBits_eq_ok_iff.mp hsize).1
      exact absurd (hv _ (List.mem_singleton_self _)) p.not_inRange_pow_maxDigits
  · obtain ⟨e, he, hkind⟩ := exists_encode_pow_maxDigits_eq_error .w64 p
    exact ⟨e, he, by rw [hkind]; decide⟩

end BitPack
