/-
# Sequences as runs of bits

A value of a sequence is written as the code of a number below `2 ^ width`, the value itself
or what zigzag folds it to, and exactly the values within the bounds are read back from their
numbers (`Params.inRange_iff`).  So a sequence of such values is encoded as the codes of its
values in order (`encode_eq_ok`), and encoding fails at the first other value
(`encode_eq_error`).  Every code ends by itself: the values are read off the front of the
stream, whatever follows the last one (`Params.readsOff_sequenceBits`).  What a stream is
decoded to in general is said by the values ahead in its bits (`result_decode_eq_ite`).
Since bytes are completed with zeros at their end only, nothing in this depends on the size of
the words (`decode_encode`).
-/
import BitPack.Batch
import BitPack.Proofs.ReaderAhead
import BitPack.Proofs.WriterContents

namespace BitPack

open Text.Numeral (maxDigits)

lemma Traced.result_bind {α β : Type} (x : Traced α) (f : α → Traced β) :
    (x >>= f).result = x.result >>= fun a => (f a).result := by
  cases hx : x.result with
  | error e => rw [Traced.bind_error f hx]; rfl
  | ok a => rw [Traced.bind_ok f hx]; rfl

namespace Params

/-! ## Values as numbers -/

/-- The number that stands for a value in its field. -/
def code (p : Params) (v : Int) : Nat :=
  if p.signed then Zigzag.fold p.zigzagExponent v else v.toNat

/-- The value that a number in a field stands for. -/
def value (p : Params) (u : Nat) : Int :=
  if p.signed then Zigzag.unfold p.zigzagExponent u else u

/-- The bits of the field of a value. -/
def fieldBits (p : Params) (v : Int) : Bits := p.chunking.encode (p.code v)

/-- The bits of the fields of a sequence. -/
def sequenceBits (p : Params) (values : List Int) : Bits := values.flatMap p.fieldBits

@[simp] lemma sequenceBits_nil (p : Params) : p.sequenceBits [] = [] := rfl

@[simp] lemma sequenceBits_cons (p : Params) (v : Int) (vs : List Int) :
    p.sequenceBits (v :: vs) = p.fieldBits v ++ p.sequenceBits vs := List.flatMap_cons

@[simp] lemma sequenceBits_append (p : Params) (us vs : List Int) :
    p.sequenceBits (us ++ vs) = p.sequenceBits us ++ p.sequenceBits vs := List.flatMap_append

variable {p : Params} {v : Int}

/-- The values within the bounds are those that are read back from a number of the width. -/
lemma inRange_iff : p.InRange v ↔ p.value (p.code v) = v ∧ p.code v < 2 ^ p.width.bits := by
  have hw := p.width.bits_pos
  unfold InRange minValue maxValue value code
  cases p.signed with
  | true =>
    simp only [if_true, signedRange, Zigzag.unfold_fold, true_and,
      Zigzag.fold_lt_iff p.zigzagExponent_lt, Zigzag.magnitude_lt_iff]
    omega
  | false =>
    have hp : ((2 ^ p.width.bits : Nat) : Int) = 2 ^ p.width.bits := by norm_cast
    simp only [Bool.false_eq_true, if_false]
    omega

/-- Every number is the code of its value. -/
lemma code_value (p : Params) (u : Nat) : p.code (p.value u) = u := by
  unfold code value
  split
  · exact Zigzag.fold_unfold _ u
  · exact Int.toNat_natCast u

lemma inRange_value {u : Nat} (h : u < 2 ^ p.width.bits) : p.InRange (p.value u) := by
  rw [inRange_iff, code_value]
  exact ⟨rfl, h⟩

lemma value_zero (p : Params) : p.value 0 = 0 := by
  simp [value, Zigzag.unfold]

lemma code_eq_zero_iff (h : p.InRange v) : p.code v = 0 ↔ v = 0 := by
  obtain ⟨hvalue, -⟩ := inRange_iff.mp h
  constructor
  · intro h0
    rw [← hvalue, h0]
    simp [value, Zigzag.unfold]
  · rintro rfl
    simp [code, Zigzag.fold_eq_zero_iff]

/-- Only the field of zero has no set bit. -/
lemma fieldBits_eq_zero_iff (h : p.InRange v) : (∀ b ∈ p.fieldBits v, b = false) ↔ v = 0 := by
  obtain ⟨-, hlt⟩ := inRange_iff.mp h
  rw [fieldBits, Chunking.encode_eq_zero_iff hlt, code_eq_zero_iff h]

/-! ## Writing -/

/-- The request that writes a value. -/
def writeRequest (p : Params) (v : Int) : WriteRequest :=
  if p.signed then .signed v p.chunkLength p.zigzagExponent p.width.bits
  else .unsigned v p.chunkLength p.width.bits

lemma run_writeRequest {σ : Type} [BitSink σ] (p : Params) (v : Int) :
    (p.writeRequest v).run = (p.writeField v : EStateM Error σ Unit) := by
  unfold writeRequest writeField
  split <;> rfl

/-- A value within the bounds passes all checks and is written as its field. -/
lemma stream_writeRequest (h : p.InRange v) : (p.writeRequest v).stream = .ok (p.fieldBits v) := by
  obtain ⟨hvalue, hlt⟩ := inRange_iff.mp h
  unfold writeRequest fieldBits
  unfold value at hvalue
  split
  · next hs =>
    rw [code, if_pos hs] at hlt ⊢
    exact stream_signed_eq_ok_iff.mpr ⟨p.chunking, p.zigzagExponent, rfl, rfl, rfl,
      p.zigzagExponent_lt, (Zigzag.fold_lt_iff p.zigzagExponent_lt v).mp hlt, rfl⟩
  · next hs =>
    rw [if_neg hs] at hvalue
    exact stream_unsigned_eq_ok_iff.mpr ⟨p.chunking, p.code v, rfl, rfl, hvalue.symm, hlt, rfl⟩

section Writing

variable {σ : Type} [BitSink σ] {R : σ → Bits → Prop} (hR : BitSink.Faithful R) {s : σ} {t : Bits}
include hR

lemma writeField_appends (h : R s t) (hv : p.InRange v) :
    BitSink.Appends R (p.writeField v) s t (.ok (p.fieldBits v)) := by
  rw [← run_writeRequest, ← stream_writeRequest hv]
  exact WriteRequest.run_appends hR h _

/-- Values within the bounds are written one after the other. -/
lemma writeFields_appends (h : R s t) {values : List Int} (hv : ∀ v ∈ values, p.InRange v)
    (index : Nat) :
    BitSink.Appends R (p.writeFields index values) s t (.ok (p.sequenceBits values)) := by
  induction values generalizing s t index with
  | nil => exact BitSink.appends_pure h
  | cons v vs ih =>
    obtain ⟨hv, hvs⟩ := List.forall_mem_cons.mp hv
    rw [writeFields, if_pos hv, sequenceBits_cons]
    refine BitSink.appends_append (writeField_appends hR h hv) ?_
    intro s' h'
    exact ih h' hvs _

/-- The first value out of bounds ends the writing behind the values in front of it. -/
lemma writeFields_eq_error (h : R s t) {front : List Int} (hfront : ∀ u ∈ front, p.InRange u)
    (hv : ¬p.InRange v) (rest : List Int) (index : Nat) :
    ∃ s', (p.writeFields index (front ++ v :: rest)).run s =
        .error (.outOfBounds v (index + front.length) p.minValue p.maxValue p.width.bits) s' ∧
      R s' (t ++ p.sequenceBits front) := by
  induction front generalizing s t index with
  | nil =>
    rw [List.nil_append, writeFields, if_neg hv]
    exact ⟨s, rfl, by simpa using h⟩
  | cons u front ih =>
    obtain ⟨hu, hfront⟩ := List.forall_mem_cons.mp hfront
    obtain ⟨s₁, hrun₁, h₁⟩ := writeField_appends hR h hu
    obtain ⟨s', hrun, h'⟩ := ih h₁ hfront (index + 1)
    refine ⟨s', ?_, by simpa using h'⟩
    rw [List.cons_append, writeFields, if_pos hu, EStateM.run_bind, hrun₁]
    dsimp only
    rw [hrun, List.length_cons, Nat.add_assoc, Nat.add_comm 1]

end Writing

/-! ## Reading -/

section Reading

variable {σ : Type} [BitSource σ] {R : σ → Bits → Prop} (hR : BitSource.Faithful R)
include hR

lemma readField_yields {s : σ} {t : Bits} (h : R s t) :
    BitSource.Yields R p.readField s (.ok (p.chunking.read p.value t)) := by
  have hc : Chunking.ofInts p.chunkLength p.width.bits = .ok p.chunking := p.ofInts_chunking
  unfold readField value
  split
  · have hread := BitSource.yields_readSigned hR h p.chunkLength p.zigzagExponent p.width.bits
    rwa [hc, checkZigzagExponent_of_lt p.zigzagExponent_lt] at hread
  · have hread := BitSource.yields_readUnsigned hR h p.chunkLength p.width.bits
    rwa [hc] at hread

end Reading

end Params

/-! ## Encoding -/

section Encoding

variable {p : Params} {values : List Int} (h : ∀ v ∈ values, p.InRange v) (w : Width)
include h

lemma encodeToWriter_eq_ok :
    ∃ wr, (encodeToWriter p w values).result = .ok wr ∧
      Writer.Holds w wr (p.sequenceBits values) := by
  obtain ⟨wr, hrun, hholds⟩ :=
    Params.writeFields_appends (Writer.faithful w) (Writer.holds_empty w) h 0
  refine ⟨wr, ?_, hholds⟩
  rw [encodeToWriter, hrun]

/-- The encoding of a sequence does not depend on the size of the words. -/
lemma encode_eq_ok : (encode p w values).result = .ok (Bytes.ofBits (p.sequenceBits values)) := by
  obtain ⟨wr, hresult, hholds⟩ := encodeToWriter_eq_ok h w
  rw [encode, Traced.result_bind, hresult, ← Writer.bytes_of_holds hholds]
  rfl

end Encoding

section OutOfBounds

variable {p : Params} {front : List Int} {v : Int} (hfront : ∀ u ∈ front, p.InRange u)
  (hv : ¬p.InRange v) (w : Width) (rest : List Int)
include hfront hv

/-- Encoding fails at the first value out of bounds. -/
lemma encodeToWriter_eq_error :
    (encodeToWriter p w (front ++ v :: rest)).result =
      .error (.outOfBounds v front.length p.minValue p.maxValue p.width.bits) := by
  obtain ⟨wr, hrun, -⟩ :=
    Params.writeFields_eq_error (Writer.faithful w) (Writer.holds_empty w) hfront hv rest 0
  rw [encodeToWriter, hrun, Nat.zero_add]

lemma encode_eq_error :
    (encode p w (front ++ v :: rest)).result =
      .error (.outOfBounds v front.length p.minValue p.maxValue p.width.bits) := by
  rw [encode, Traced.result_bind, encodeToWriter_eq_error hfront hv]
  rfl

end OutOfBounds

/-! ## Decoding -/

namespace Params

variable {p : Params} {base r : Reader}

/-- The number at the front of what is ahead is read as its value. -/
lemma readField_of_some (hfit : base.Fits) {t rest : Bits} {u : Nat}
    (hd : p.chunking.decode t = some (u, rest)) (h : Reader.Ahead base r t) :
    ∃ r', p.readField.run r = .ok (.value (p.value u)) r' ∧ Reader.Ahead base r' rest := by
  have hread := readField_yields (p := p) (Reader.faithful hfit) h
  rwa [Chunking.read_of_some hd] at hread

/-- If what is ahead ends inside a field, all of it is taken and the field is truncated. -/
lemma readField_of_none (hfit : base.Fits) {t : Bits} (hd : p.chunking.decode t = none)
    (h : Reader.Ahead base r t) :
    ∃ r', p.readField.run r =
        .ok (.truncated p.chunkLength p.width.bits (p.chunking.payloadOf t.length)) r' ∧
      Reader.Ahead base r' [] := by
  have hread := readField_yields (p := p) (Reader.faithful hfit) h
  rwa [Chunking.read_of_none hd] at hread

/-- A value whose field is ahead is read, and what follows is left. -/
lemma readField_fieldBits (hfit : base.Fits) {v : Int} (hv : p.InRange v) {t : Bits}
    (h : Reader.Ahead base r (p.fieldBits v ++ t)) :
    ∃ r', p.readField.run r = .ok (.value v) r' ∧ Reader.Ahead base r' t := by
  obtain ⟨hvalue, hlt⟩ := inRange_iff.mp hv
  have hread := readField_of_some hfit (Chunking.decode_encode_append hlt t) h
  rwa [hvalue] at hread

/-! ### Values ahead -/

/-- The fields of some values are read off the front of a run and leave the rest of it.  A number
need not be written in as few chunks as possible. -/
inductive ReadsOff (p : Params) : Bits → List Int → Bits → Prop
  | nil (t : Bits) : p.ReadsOff t [] t
  | cons {t mid rest : Bits} {u : Nat} {vs : List Int}
      (hd : p.chunking.decode t = some (u, mid)) (h : p.ReadsOff mid vs rest) :
      p.ReadsOff t (p.value u :: vs) rest

/-- The values of the first `n` fields of a run, or of those in front of its end. -/
def valuesAhead (p : Params) : Nat → Bits → List Int
  | 0, _ => []
  | n + 1, t =>
    match p.chunking.decode t with
    | some (u, rest) => p.value u :: p.valuesAhead n rest
    | none => []

lemma valuesAhead_of_none {t : Bits} (h : p.chunking.decode t = none) (n : Nat) :
    p.valuesAhead n t = [] := by
  cases n with
  | zero => rfl
  | succ n => rw [valuesAhead, h]

/-- The values read off are ahead in front of those of the rest. -/
lemma ReadsOff.valuesAhead_eq {t rest : Bits} {vs : List Int} (h : p.ReadsOff t vs rest)
    (n : Nat) :
    p.valuesAhead n t = vs.take n ++ p.valuesAhead (n - vs.length) rest := by
  induction h generalizing n with
  | nil t => simp
  | cons hd _ ih =>
    cases n with
    | zero => simp [valuesAhead]
    | succ n => simp [valuesAhead, hd, ih n]

lemma ReadsOff.valuesAhead_length {t rest : Bits} {vs : List Int} (h : p.ReadsOff t vs rest) :
    p.valuesAhead vs.length t = vs := by
  simp [h.valuesAhead_eq, valuesAhead]

/-- Values within the bounds are read off in front of whatever follows their fields. -/
lemma readsOff_sequenceBits {values : List Int} (hv : ∀ v ∈ values, p.InRange v) (t : Bits) :
    p.ReadsOff (p.sequenceBits values ++ t) values t := by
  induction values with
  | nil => exact .nil t
  | cons v vs ih =>
    obtain ⟨hv, hvs⟩ := List.forall_mem_cons.mp hv
    obtain ⟨hvalue, hlt⟩ := inRange_iff.mp hv
    have hcons := ReadsOff.cons (p := p) (Chunking.decode_encode_append hlt _) (ih hvs)
    rwa [hvalue, ← fieldBits, ← List.append_assoc, ← sequenceBits_cons] at hcons

/-- Values in front of a run are ahead in front of the values of the run. -/
lemma valuesAhead_append {values : List Int} (hv : ∀ v ∈ values, p.InRange v) (n : Nat)
    (t : Bits) :
    p.valuesAhead n (p.sequenceBits values ++ t) =
      values.take n ++ p.valuesAhead (n - values.length) t :=
  (readsOff_sequenceBits hv t).valuesAhead_eq n

/-! ### A number of values -/

/-- The fields of a run are read as many as asked for, unless the run ends inside one of them. -/
lemma result_decodeFrom (hfit : base.Fits) {t : Bits} (h : Reader.Ahead base r t)
    (count index n : Nat) :
    (decodeFrom p count index n r).result =
      if (p.valuesAhead n t).length = n then .ok (p.valuesAhead n t)
      else .error (.truncated (index + (p.valuesAhead n t).length) (some count)) := by
  induction n generalizing index r t with
  | zero => rfl
  | succ n ih =>
    rw [valuesAhead]
    rcases hd : p.chunking.decode t with _ | ⟨u, rest⟩
    · -- the run ends inside the field of the index
      obtain ⟨r', hrun, -⟩ := readField_of_none hfit hd h
      rw [decodeFrom, hrun]
      rfl
    · obtain ⟨r', hrun, h'⟩ := readField_of_some hfit hd h
      rw [decodeFrom, hrun]
      dsimp only
      rw [Traced.result_bind, ih h', List.length_cons, Nat.add_assoc, Nat.add_comm 1]
      simp only [Nat.add_right_cancel_iff]
      split <;> rfl

/-- Values are decoded off the front of what is ahead. -/
lemma decodeFrom_append (hfit : base.Fits) {values : List Int} (hv : ∀ v ∈ values, p.InRange v)
    {rest : Bits} (h : Reader.Ahead base r (p.sequenceBits values ++ rest)) (count index : Nat) :
    (decodeFrom p count index values.length r).result = .ok values := by
  rw [result_decodeFrom hfit h, (readsOff_sequenceBits hv rest).valuesAhead_length, if_pos rfl]

/-! ### All values -/

/-- The loop ends when only zeros are left. -/
lemma decodeAllFrom_of_onlyZeroesLeft (h : r.onlyZeroesLeft = true) (index : Nat) :
    decodeAllFrom p index r = pure [] := by
  rw [decodeAllFrom, if_pos h]

/-- The loop goes on behind a value. -/
lemma decodeAllFrom_of_value {r' : Reader} {v : Int} (hgo : r.onlyZeroesLeft = false)
    (hrun : p.readField.run r = .ok (.value v) r') (index : Nat) :
    decodeAllFrom p index r =
      decodeAllFrom p (index + 1) r' >>= fun vs => pure (v :: vs) := by
  rw [decodeAllFrom, if_neg (by rw [hgo]; decide)]
  split
  · next u s h =>
    rw [hrun] at h
    cases h
    rfl
  · next t s hne h =>
    rw [hrun] at h
    cases h
    exact absurd rfl (hne v)
  · next e s h =>
    rw [hrun] at h
    cases h

/-- The loop fails at a field that is truncated. -/
lemma decodeAllFrom_of_truncated {r' : Reader} {chunkLength width : Nat} {payload : Int}
    (hgo : r.onlyZeroesLeft = false)
    (hrun : p.readField.run r = .ok (.truncated chunkLength width payload) r') (index : Nat) :
    decodeAllFrom p index r =
      truncatedAt index none (.truncated chunkLength width payload) r' := by
  rw [decodeAllFrom, if_neg (by simp [hgo])]
  split
  · next h => simp [hrun] at h
  · next h =>
    rw [hrun] at h
    cases h
    rfl
  · next h => simp [hrun] at h

lemma result_decodeAllFrom_of_onlyZeroesLeft (h : r.onlyZeroesLeft = true) (index : Nat) :
    (decodeAllFrom p index r).result = .ok [] := by
  rw [decodeAllFrom_of_onlyZeroesLeft h]
  rfl

lemma result_decodeAllFrom_of_value {r' : Reader} {v : Int} (hgo : r.onlyZeroesLeft = false)
    (hrun : p.readField.run r = .ok (.value v) r') (index : Nat) :
    (decodeAllFrom p index r).result =
      (decodeAllFrom p (index + 1) r').result.map (v :: ·) := by
  rw [decodeAllFrom_of_value hgo hrun, Traced.result_bind]
  rfl

end Params

lemma result_decode (p : Params) (w : Width) (data : Bytes) (n : Nat) :
    (decode p w data n).result = (decodeFrom p n 0 n (Reader.ofBytes w data)).result := by
  rw [decode, if_neg (Int.not_lt.mpr (Int.natCast_nonneg n)), Traced.result_bind]
  rfl

/-- Decoding gives the values ahead in the bits of the data, completed to whole words, or names
the first one that is not there. -/
lemma result_decode_eq_ite (p : Params) (w : Width) (data : Bytes) (n : Nat) :
    (decode p w data n).result =
      if (p.valuesAhead n (Bits.pad w.bits (Bytes.toBits data))).length = n then
        .ok (p.valuesAhead n (Bits.pad w.bits (Bytes.toBits data)))
      else
        .error (.truncated (p.valuesAhead n (Bits.pad w.bits (Bytes.toBits data))).length
          (some n)) := by
  rw [result_decode, Params.result_decodeFrom (Reader.fits_ofBytes w data)
    (Reader.ahead_ofBytes w data), Nat.zero_add]

/-- Data that ends inside its first field gives no value. -/
lemma result_decode_of_none {p : Params} {w : Width} {data : Bytes}
    (h : p.chunking.decode (Bits.pad w.bits (Bytes.toBits data)) = none) {n : Nat} (hn : 0 < n) :
    (decode p w data n).result = .error (.truncated 0 (some n)) := by
  rw [result_decode_eq_ite, Params.valuesAhead_of_none h, List.length_nil, if_neg hn.ne]

/-- A negative number of values is refused. -/
lemma result_decode_of_neg (p : Params) (w : Width) (data : Bytes) {n : Int} (h : n < 0) :
    (decode p w data n).result = .error (.negativeCount n) := by
  rw [decode, if_pos h]

lemma result_decodeAll (p : Params) (w : Width) (data : Bytes) :
    (decodeAll p w data).result = (decodeAllFrom p 0 (Reader.ofBytes w data)).result := by
  rw [decodeAll, Traced.result_bind]
  rfl

/-! ### Failures -/

/-- The text of a truncation shows the index and, if it was given, the number of values asked for,
which is greater. -/
lemma Error.kind_truncated {index : Nat} {count : Option Nat} (h : ∀ n ∈ count, index ≤ n) :
    (truncated index count).kind =
      if count.getD index < 10 ^ maxDigits then .decoding else .contract := by
  have hprint : (truncated index count).Printable ↔ count.getD index < 10 ^ maxDigits := by
    cases count with
    | none => simp [Printable, numbers]
    | some n =>
      have hle := h n rfl
      simp only [Printable, numbers, List.forall_mem_cons, Int.natAbs_natCast, Option.getD_some,
        List.not_mem_nil, false_imp_iff, implies_true, and_true]
      omega
  simp only [kind, hprint, subject]

/-- Decoding fails inside the value of an index.  That is an error of decoding as long as the
number of values asked for, or the index if none was given, has a decimal text. -/
def FailsInside (x : Except Error (List Int)) (index : Nat) (count : Option Nat) : Prop :=
  x = .error (.truncated index count) ∧
    (Error.truncated index count).kind =
      if count.getD index < 10 ^ maxDigits then .decoding else .contract

lemma failsInside_of_eq {x : Except Error (List Int)} {index : Nat} {count : Option Nat}
    (h : x = .error (.truncated index count)) (hle : ∀ n ∈ count, index ≤ n) :
    FailsInside x index count := ⟨h, Error.kind_truncated hle⟩

/-- Asking for a number of values that has no decimal text is an error of the contract where the
data does not hold even one. -/
lemma exists_decode_pow_maxDigits_eq_error (p : Params) (w : Width) (data : Bytes)
    (h : p.chunking.decode (Bits.pad w.bits (Bytes.toBits data)) = none) :
    ∃ e, (decode p w data (10 ^ maxDigits : Nat)).result = .error e ∧ e.kind = .contract := by
  refine ⟨_, result_decode_of_none h (Nat.pow_pos (by decide)), ?_⟩
  rw [Error.kind_truncated (by simp), Option.getD_some, if_neg (Nat.lt_irrefl _)]

lemma exists_decode_nil_eq_error (p : Params) (w : Width) :
    ∃ e, (decode p w [] (10 ^ maxDigits : Nat)).result = .error e ∧ e.kind = .contract :=
  exists_decode_pow_maxDigits_eq_error p w [] (by simp [p.chunking.decode_nil])

/-- **Round trip of a sequence.**  Any values within the bounds are encoded, and decoding as
many values gives them back, whatever bytes follow the encoding and whatever the sizes of the
words of the two sides. -/
theorem decode_encode (p : Params) {values : List Int} (h : ∀ v ∈ values, p.InRange v)
    (w w' : Width) (extra : Bytes) :
    ∃ data, (encode p w values).result = .ok data ∧
      (decode p w' (data ++ extra) values.length).result = .ok values := by
  refine ⟨_, encode_eq_ok h w, ?_⟩
  rw [result_decode]
  -- the zeros behind the encoding and the further bytes are ahead of the last value
  have hahead := Reader.ahead_start (r := Reader.ofBytes w'
    (Bytes.ofBits (p.sequenceBits values) ++ extra)) rfl
  rw [Reader.bits_ofBytes, Bytes.toBits_append, Bytes.toBits_ofBits, Bits.pad, Bits.pad,
    List.append_assoc, List.append_assoc] at hahead
  exact p.decodeFrom_append (Reader.fits_ofBytes _ _) h hahead _ 0

/-- Both bounds of a signed width, written to words of 64 bits and read from bytes. -/
theorem decode_encode_signed_bounds :
    let p : Params := ⟨.w16, 3, true, 2, by decide, by decide⟩
    let values : List Int := [-32768, 32767, 0, -5]
    (∀ v ∈ values, p.InRange v) ∧
      ∃ data, (encode p .w64 values).result = .ok data ∧
        (decode p .w8 (data ++ [255]) values.length).result = .ok values := by
  intro p values
  have hv : ∀ v ∈ values, p.InRange v := by decide
  exact ⟨hv, decode_encode p hv .w64 .w8 [255]⟩

end BitPack
