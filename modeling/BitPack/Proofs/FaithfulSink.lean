/-
# What a write appends

`WriteRequest.stream` says, without a destination, which bits a write appends or why it is
refused.  A destination is faithful to a relation between its states and runs of bits if its
raw operation appends the low bits of a number and refuses any other request.  Everything
else follows from the raw operation, so every write on a faithful destination either appends
exactly its bits or fails with exactly its error and leaves the state alone:

* `WriteRequest.run_appends`: one write;
* `WriteRequest.attempts_appends`: writes one after the other, failures among them;
* `WriteRequest.forM_eq_ok`: writes all of which succeed.
-/
import BitPack.Sink
import BitPack.Proofs.FieldCode
import BitPack.Proofs.StreamText

namespace BitPack

/-! ## Answers of single writes -/

/-- The bits that a write appends, or its error. -/
def WriteRequest.stream : WriteRequest → Except Error Bits
  | bits value count => do
    let n ← checkCount maxRawBits count
    return Bits.ofInt n value
  | text s => BitText.checkedBits s
  | bitset value size count => do
    let n ← checkCount size (count.getD size)
    let n ← checkCount maxRawBits n
    return Bits.ofInt n value
  | unsigned value chunkLength width => do
    let c ← Chunking.ofInts chunkLength width
    let n ← checkUnsigned value width
    return c.encode n
  | signed value chunkLength exponent width => do
    let c ← Chunking.ofInts chunkLength width
    let k ← checkZigzagExponent exponent width
    checkSigned value width
    return c.encode (Zigzag.fold k value)

section stream

variable {value size chunkLength exponent width count : Int} {u : Bits}

lemma stream_bits_eq_ok_iff :
    (WriteRequest.bits value count).stream = .ok u ↔
      ∃ n : Nat, count = n ∧ n ≤ 64 ∧ u = Bits.ofInt n value := by
  simp only [WriteRequest.stream, Except.bind_eq_ok_iff, checkCount_eq_ok_iff, maxRawBits]
  constructor
  · rintro ⟨n, ⟨rfl, hn⟩, hu⟩
    cases hu
    exact ⟨n, rfl, by omega, rfl⟩
  · rintro ⟨n, rfl, hn, rfl⟩
    exact ⟨n, ⟨rfl, by omega⟩, rfl⟩

lemma stream_bitset_eq_ok_iff {count : Option Int} :
    (WriteRequest.bitset value size count).stream = .ok u ↔
      ∃ n : Nat, count.getD size = n ∧ n ≤ size ∧ n ≤ 64 ∧ u = Bits.ofInt n value := by
  simp only [WriteRequest.stream, Except.bind_eq_ok_iff, checkCount_eq_ok_iff, maxRawBits]
  constructor
  · rintro ⟨n, ⟨hn, hsize⟩, m, ⟨hm, hmax⟩, hu⟩
    cases hu
    exact ⟨m, by omega, by omega, by omega, rfl⟩
  · rintro ⟨n, hn, hsize, hmax, rfl⟩
    exact ⟨n, ⟨hn.symm, by omega⟩, n, ⟨rfl, by omega⟩, rfl⟩

lemma stream_unsigned_eq_ok_iff :
    (WriteRequest.unsigned value chunkLength width).stream = .ok u ↔
      ∃ (c : Chunking) (n : Nat), chunkLength = c.length ∧ width = c.width.bits ∧ value = n ∧
        n < 2 ^ c.width.bits ∧ u = c.encode n := by
  simp only [WriteRequest.stream, Except.bind_eq_ok_iff, Chunking.ofInts_eq_ok_iff]
  constructor
  · rintro ⟨c, ⟨rfl, rfl⟩, n, hn, hu⟩
    cases hu
    obtain ⟨hv, hlt⟩ := checkUnsigned_eq_ok_iff.mp hn
    exact ⟨c, n, rfl, rfl, hv, hlt, rfl⟩
  · rintro ⟨c, n, rfl, rfl, rfl, hlt, rfl⟩
    exact ⟨c, ⟨rfl, rfl⟩, n, checkUnsigned_eq_ok_iff.mpr ⟨rfl, hlt⟩, rfl⟩

lemma stream_signed_eq_ok_iff :
    (WriteRequest.signed value chunkLength exponent width).stream = .ok u ↔
      ∃ (c : Chunking) (k : Nat), chunkLength = c.length ∧ width = c.width.bits ∧
        exponent = k ∧ k < c.width.bits ∧ Zigzag.magnitude value < 2 ^ (c.width.bits - 1) ∧
        u = c.encode (Zigzag.fold k value) := by
  simp only [WriteRequest.stream, Except.bind_eq_ok_iff, Chunking.ofInts_eq_ok_iff]
  constructor
  · rintro ⟨c, ⟨rfl, rfl⟩, k, hk, _, hv, hu⟩
    cases hu
    obtain ⟨he, hlt⟩ := checkZigzagExponent_eq_ok_iff.mp hk
    exact ⟨c, k, rfl, rfl, he, hlt, (checkSigned_eq_ok_iff c.width.bits_pos).mp hv, rfl⟩
  · rintro ⟨c, k, rfl, rfl, rfl, hlt, hv, rfl⟩
    exact ⟨c, ⟨rfl, rfl⟩, k, checkZigzagExponent_eq_ok_iff.mpr ⟨rfl, hlt⟩, (),
      (checkSigned_eq_ok_iff c.width.bits_pos).mpr hv, rfl⟩

end stream

/-- The bits of all requests that succeed, in order. -/
def WriteRequest.streams (qs : List WriteRequest) : Bits :=
  qs.flatMap fun q => q.stream.toOption.getD []

/-! ## Faithful destinations -/

namespace BitSink

variable {σ : Type}

/-- A computation on a state that holds `t` gives an answer: it appends the bits of the
answer, or it fails with its error and leaves the state alone. -/
def Appends (R : σ → Bits → Prop) (x : EStateM Error σ Unit) (s : σ) (t : Bits) :
    Except Error Bits → Prop
  | .ok u => ∃ s', x.run s = .ok () s' ∧ R s' (t ++ u)
  | .error e => x.run s = .error e s

section Answers

variable {R : σ → Bits → Prop} {s : σ} {t : Bits}

/-- A check in front of a computation answers with its error when it fails. -/
lemma appends_check {α : Type} (check : Except Error α) {f : α → EStateM Error σ Unit}
    {g : α → Except Error Bits} (h : ∀ a, check = .ok a → Appends R (f a) s t (g a)) :
    Appends R (liftM check >>= f) s t (check >>= g) := by
  cases check with
  | error e => rfl
  | ok a => exact h a rfl

lemma appends_pure (h : R s t) : Appends R (pure ()) s t (.ok []) :=
  ⟨s, rfl, by rwa [List.append_nil]⟩

/-- A computation that appends is followed by the next one. -/
lemma appends_append {x : EStateM Error σ Unit} {f : Unit → EStateM Error σ Unit} {u v : Bits}
    (hx : Appends R x s t (.ok u))
    (hf : ∀ s', R s' (t ++ u) → Appends R (f ()) s' (t ++ u) (.ok v)) :
    Appends R (x >>= f) s t (.ok (u ++ v)) := by
  obtain ⟨s', hs', hR⟩ := hx
  obtain ⟨s'', hs'', hR'⟩ := hf s' hR
  refine ⟨s'', ?_, ?_⟩
  · rw [EStateM.run_bind, hs']
    exact hs''
  · rwa [← List.append_assoc]

end Answers

variable [BitSink σ]

/-- A destination whose states hold runs of bits as `R` says: the raw operation appends the low bits
of a number, and the length and the bytes of a state are those of the run it holds. -/
structure Faithful (R : σ → Bits → Prop) : Prop where
  writeBits {s : σ} {t : Bits} (h : R s t) (value count : Int) :
    Appends R (BitSink.writeBits value count) s t (WriteRequest.bits value count).stream
  bitLength {s : σ} {t : Bits} (h : R s t) : BitSink.bitLength s = t.length
  bytes {s : σ} {t : Bits} (h : R s t) : BitSink.bytes s = Bytes.ofBits t

section Writes

variable {R : σ → Bits → Prop} (hR : Faithful R) {s : σ} {t : Bits} (h : R s t)
include hR h

lemma appends_writeBits_natCast (value : Int) {n : Nat} (hn : n ≤ 64) :
    Appends R (writeBits value n) s t (.ok (Bits.ofInt n value)) := by
  have hstream : (WriteRequest.bits value n).stream = .ok (Bits.ofInt n value) := by
    rw [WriteRequest.stream, checkCount_maxRawBits hn]
    rfl
  rw [← hstream]
  exact hR.writeBits h value n

lemma appends_writeText (text : String) :
    Appends R (writeText text) s t (BitText.checkedBits text) := by
  rw [writeText, BitText.toNumber_eq]
  cases hc : BitText.checkedBits text with
  | error e => rfl
  | ok u =>
    obtain ⟨rfl, hu⟩ := BitText.checkedBits_eq_ok_iff.mp hc
    -- the number of the text has the bits of the text as its low bits
    have hwrite := appends_writeBits_natCast hR h u.toNat hu
    rw [Bits.ofInt_toNat] at hwrite
    rw [BitText.length_ofBits]
    exact hwrite

lemma appends_writeBitset (value size : Int) (count : Option Int) :
    Appends R (writeBitset value size count) s t (WriteRequest.bitset value size count).stream :=
  appends_check _ fun n _ => hR.writeBits h value n

/-- Pieces within the limit of one raw operation are appended one after the other. -/
lemma appends_writePieces {ps : List Piece} (hps : ∀ p ∈ ps, p.count ≤ 64) :
    Appends R (writePieces ps) s t (.ok (ps.flatMap Piece.bits)) := by
  induction ps generalizing s t with
  | nil => exact appends_pure h
  | cons p ps ih =>
    rw [List.forall_mem_cons] at hps
    rw [writePieces, List.flatMap_cons]
    refine appends_append (appends_writeBits_natCast hR h p.value hps.1) ?_
    intro s' h'
    exact ih h' hps.2

lemma appends_writeUnsigned (value chunkLength width : Int) :
    Appends R (writeUnsigned value chunkLength width) s t
      (WriteRequest.unsigned value chunkLength width).stream := by
  refine appends_check _ ?_
  intro c _
  refine appends_check _ ?_
  intro n _
  rw [← c.flatMap_pieces n]
  refine appends_writePieces hR h ?_
  intro p hp
  exact c.count_le_of_mem_pieces hp

/-- The folded number of a signed field passes all checks of the unsigned one. -/
lemma appends_writeSigned (value chunkLength exponent width : Int) :
    Appends R (writeSigned value chunkLength exponent width) s t
      (WriteRequest.signed value chunkLength exponent width).stream := by
  refine appends_check _ ?_
  intro c hc
  refine appends_check _ ?_
  intro k hk
  refine appends_check _ ?_
  intro _ hv
  obtain ⟨rfl, rfl⟩ := Chunking.ofInts_eq_ok_iff.mp hc
  obtain ⟨-, hk⟩ := checkZigzagExponent_eq_ok_iff.mp hk
  have hmag := (checkSigned_eq_ok_iff c.width.bits_pos).mp hv
  have hfold := (Zigzag.fold_lt_iff hk value).mpr hmag
  -- folding succeeds, and the folded number is written as an unsigned field of the width
  have hwrite := appends_writeUnsigned hR h (Zigzag.fold k value) c.length c.width.bits
  rw [WriteRequest.stream, hc, checkUnsigned_eq_ok_iff.mpr ⟨rfl, hfold⟩] at hwrite
  rw [Zigzag.encodeBlocks_eq_ok hk hmag]
  exact hwrite

end Writes
end BitSink

namespace WriteRequest

variable {σ : Type} [BitSink σ] {R : σ → Bits → Prop} (hR : BitSink.Faithful R)
include hR

/-- Every write on a faithful destination appends its bits or fails with its error. -/
lemma run_appends {s : σ} {t : Bits} (h : R s t) (q : WriteRequest) :
    BitSink.Appends R q.run s t q.stream := by
  cases q with
  | bits value count => exact hR.writeBits h value count
  | text text => exact BitSink.appends_writeText hR h text
  | bitset value size count => exact BitSink.appends_writeBitset hR h value size count
  | unsigned value chunkLength width =>
    exact BitSink.appends_writeUnsigned hR h value chunkLength width
  | signed value chunkLength exponent width =>
    exact BitSink.appends_writeSigned hR h value chunkLength exponent width

/-- A write without a stream leaves a faithful destination as it is. -/
lemma attempt_of_error {s : σ} {t : Bits} (h : R s t) {q : WriteRequest} {e : Error}
    (hq : q.stream = .error e) : q.attempt s = (.error e, s) := by
  have hrun := run_appends hR h q
  rw [hq] at hrun
  rw [attempt, show q.run.run s = .error e s from hrun]

/-- A write with a stream succeeds on a faithful destination. -/
lemma attempt_of_stream {s : σ} {t : Bits} (h : R s t) {q : WriteRequest} {u : Bits}
    (hq : q.stream = .ok u) : ∃ s', q.attempt s = (.ok (), s') ∧ R s' (t ++ u) := by
  have hrun := run_appends hR h q
  rw [hq] at hrun
  obtain ⟨s', hs', h'⟩ := hrun
  exact ⟨s', by rw [attempt, hs'], h'⟩

/-- A single attempt gives the answer of its stream and appends the bits of a success. -/
lemma attempt_appends {s : σ} {t : Bits} (h : R s t) (q : WriteRequest) :
    (q.attempt s).1 = q.stream.map (fun _ => ()) ∧
      R (q.attempt s).2 (t ++ q.stream.toOption.getD []) := by
  cases hq : q.stream with
  | ok u =>
    obtain ⟨s', hs', h'⟩ := attempt_of_stream hR h hq
    rw [hs']
    exact ⟨rfl, h'⟩
  | error e =>
    rw [attempt_of_error hR h hq]
    exact ⟨rfl, (List.append_nil t).symm ▸ h⟩

/-- Attempts one after the other: every one is answered as its stream says, and the bits of
all successes are appended in order. -/
lemma attempts_appends {s : σ} {t : Bits} (h : R s t) (qs : List WriteRequest) :
    (attempts qs s).1 = qs.map (fun q => q.stream.map fun _ => ()) ∧
      R (attempts qs s).2 (t ++ streams qs) := by
  induction qs generalizing s t with
  | nil => exact ⟨rfl, by simpa [streams, attempts] using h⟩
  | cons q qs ih =>
    obtain ⟨h1, h2⟩ := attempt_appends hR h q
    obtain ⟨h3, h4⟩ := ih h2
    refine ⟨?_, ?_⟩
    · rw [attempts, List.map_cons, ← h1, ← h3]
    · rw [streams, List.flatMap_cons, ← List.append_assoc]
      exact h4

/-- Writes that all succeed are those whose streams are no errors; they append their bits
in order. -/
lemma forM_eq_ok {s s' : σ} {t : Bits} (h : R s t) {qs : List WriteRequest}
    (hrun : (qs.forM WriteRequest.run).run s = .ok () s') :
    (∀ q ∈ qs, ∃ u, q.stream = .ok u) ∧ R s' (t ++ streams qs) := by
  induction qs generalizing s t with
  | nil =>
    obtain rfl : s = s' := by simpa using hrun
    exact ⟨by simp, by simpa [streams] using h⟩
  | cons q qs ih =>
    have hq := run_appends hR h q
    rw [List.forM, EStateM.run_bind] at hrun
    cases hs : q.stream with
    | error e =>
      -- the first write has failed, and so has the run
      rw [hs] at hq
      rw [show q.run.run s = .error e s from hq] at hrun
      simp at hrun
    | ok u =>
      rw [hs] at hq
      obtain ⟨s₁, hs₁, hR₁⟩ := hq
      rw [hs₁] at hrun
      obtain ⟨hall, hR'⟩ := ih hR₁ hrun
      refine ⟨List.forall_mem_cons.mpr ⟨⟨u, hs⟩, hall⟩, ?_⟩
      rw [streams, List.flatMap_cons, ← List.append_assoc, hs]
      exact hR'

end WriteRequest
end BitPack
