/-
# What a session keeps

A session is sound if its writer holds a run of bits and its reader, if it has one, stands within
the bits of words that fit their size.  Every step keeps a sound session sound, unless it opens a
reader over words that nobody has checked (`Session.sound_step`), and so do steps one after the
other, failures among them (`Session.sound_trace`).  In a sound session a step that fails changes
nothing (`Session.step_of_error`), so the laws of writers and readers hold at every point of a
session, whatever has gone wrong before (`Session.laws_trace`).  Writer and reader do not get into
each other's way either (`Session.step_output_eq`, `Session.step_input_eq`).
-/
import BitPack.Session
import BitPack.Proofs.ListReader
import BitPack.Proofs.ListWriter
import BitPack.Proofs.ReadFailures

namespace BitPack

/-! ## Writers -/

namespace Session.Output

/-- A writer holds a run of bits. -/
def Holds : Output → Bits → Prop
  | words w, t => Writer.Holds w.wordSize w t
  | list s, t => s.bits = t

variable {o : Output} {t : Bits}

lemma holds_words {w : Width} {wr : Writer} (h : Writer.Holds w wr t) : (words wr).Holds t := by
  obtain rfl := h.wordSize_eq
  exact h

/-- A write is answered as its stream says and appends the bits of a success. -/
lemma write_holds (h : o.Holds t) (q : WriteRequest) :
    (o.write q).1 = q.stream.map (fun _ => ()) ∧
      (o.write q).2.Holds (t ++ q.stream.toOption.getD []) := by
  cases o with
  | words w =>
    obtain ⟨hanswer, hholds⟩ := WriteRequest.attempt_appends (Writer.faithful w.wordSize) h q
    exact ⟨hanswer, holds_words hholds⟩
  | list s =>
    exact WriteRequest.attempt_appends (BitSink.faithful_of_keepsList BitList.keepsList) h q

/-- A write that fails leaves the writer as it is. -/
lemma write_of_error (h : o.Holds t) {q : WriteRequest} {e : Error}
    (he : (o.write q).1 = .error e) : (o.write q).2 = o := by
  rw [(write_holds h q).1, Except.map_eq_error_iff] at he
  cases o with
  | words w =>
    rw [write, WriteRequest.attempt_of_error (Writer.faithful w.wordSize) h he]
    rfl
  | list s =>
    rw [write, WriteRequest.attempt_of_error
      (BitSink.faithful_of_keepsList BitList.keepsList) h he]
    rfl

/-- A writer counts the bits it holds, and its bytes are theirs. -/
lemma counts_of_holds (h : o.Holds t) : o.bitLength = t.length ∧ o.bytes = Bytes.ofBits t := by
  cases o with
  | words w => exact ⟨h.bitLength_eq, Writer.bytes_of_holds h⟩
  | list s =>
    obtain rfl := h
    exact ⟨rfl, rfl⟩

end Session.Output

/-! ## Readers -/

namespace BitFeed

lemma position_take_le {f : BitFeed} (h : f.position ≤ f.bits.length) (n : Nat) :
    (f.take n).2.position ≤ (f.take n).2.bits.length := by
  show f.position + ((f.bits.drop f.position).take n).length ≤ f.bits.length
  rw [List.length_take, List.length_drop]
  omega

/-- A plain list is a faithful source that stays within its bits. -/
lemma faithful_within :
    BitSource.Faithful fun (f : BitFeed) t => f.position ≤ f.bits.length ∧ f.ahead = t where
  readBits {f t} h count := by
    obtain ⟨hpos, rfl⟩ := h
    refine BitSource.yields_check _ ?_
    intro n _
    exact ⟨(f.take n).2, rfl, position_take_le hpos n, ahead_take f n⟩
  reachedEnd h := faithful.reachedEnd h.2

end BitFeed

namespace Session.Input

/-- A reader has a run of bits ahead, within words that fit their size. -/
def HasAhead : Input → Bits → Prop
  | words r, t => r.Fits ∧ Reader.Ahead r r t
  | list f, t => f.position ≤ f.bits.length ∧ f.ahead = t

variable {i : Input} {t : Bits}

lemma hasAhead_opened {r : Reader} (h : r.Opened) : (words r).HasAhead r.bits :=
  ⟨h.fits, Reader.ahead_start h.position_eq⟩

lemma hasAhead_words {base r : Reader} (hfit : base.Fits) (h : Reader.Ahead base r t) :
    (words r).HasAhead t :=
  ⟨Reader.fits_of_ahead hfit h, rfl, rfl, h.position_le, h.drop_eq⟩

/-- A read is answered as the bits ahead say and leaves what they leave. -/
lemma read_hasAhead (h : i.HasAhead t) (q : ReadRequest) :
    (i.read q).1 = (q.answer t).map Prod.fst ∧ (i.read q).2.HasAhead (q.rest t) := by
  cases i with
  | words r =>
    obtain ⟨hfit, hahead⟩ := h
    obtain ⟨hanswer, hahead'⟩ := ReadRequest.attempt_yields (Reader.faithful hfit) hahead q
    exact ⟨hanswer, hasAhead_words hfit hahead'⟩
  | list f => exact ReadRequest.attempt_yields BitFeed.faithful_within h q

/-- A read that fails leaves the reader as it is. -/
lemma read_of_error (h : i.HasAhead t) {q : ReadRequest} {e : Error}
    (he : (i.read q).1 = .error e) : (i.read q).2 = i := by
  rw [(read_hasAhead h q).1, Except.map_eq_error_iff] at he
  cases i with
  | words r =>
    rw [read, ReadRequest.attempt_of_error (Reader.faithful h.1) h.2 he]
    rfl
  | list f =>
    rw [read, ReadRequest.attempt_of_error BitFeed.faithful_within h he]
    rfl

/-- As many bits are ahead as remain, and the end is reached when none is. -/
lemma counts_of_hasAhead (h : i.HasAhead t) :
    i.bitsRemaining = t.length ∧ i.position + t.length = i.capacity ∧
      (i.reachedEnd = true ↔ t = []) := by
  cases i with
  | words r =>
    exact ⟨(Reader.length_of_ahead h.2).symm, Reader.position_of_ahead h.2,
      Reader.reachedEnd_iff h.2⟩
  | list f =>
    obtain ⟨hpos, rfl⟩ := h
    have hlen : f.ahead.length = f.bits.length - f.position := List.length_drop ..
    refine ⟨hlen.symm, ?_, ?_⟩
    · show f.position + f.ahead.length = f.bits.length
      omega
    · show BitSource.reachedEnd f = true ↔ f.ahead = []
      rw [BitFeed.faithful.reachedEnd rfl, List.isEmpty_iff]

end Session.Input

namespace Session

/-! ## Steps -/

/-- The step opens no reader over words that are not checked. -/
def Step.Checked : Step → Prop
  | .openReader (.raw _) _ => False
  | _ => True

/-- The writer holds some run of bits, and the reader has one ahead. -/
structure Sound (s : Session) : Prop where
  output : ∃ t, s.output.Holds t
  input : ∀ i ∈ s.input, ∃ t, i.HasAhead t

/-- A reader over checked contents is an opened one. -/
lemma opened_of_openContents {s : Session} {w : Width} {contents : Contents} {r : Reader}
    (hchecked : ∀ words, contents ≠ .raw words) (h : s.openContents w contents = .ok r) :
    r.Opened := by
  cases contents with
  | bytes data =>
    cases h
    exact .ofBytes w data
  | words words => exact .ofWords h
  | raw words => exact absurd rfl (hchecked words)
  | writerWords => exact .ofWords h
  | writerBytes count =>
    cases count with
    | none =>
      cases h
      exact .ofBytes w _
    | some n =>
      cases h
      exact .ofBytes w _

variable {s : Session}

lemma sound_start : start.2.Sound where
  output := ⟨[], Writer.holds_empty .w64⟩
  input := by simp [start]

/-- Every step keeps a sound session sound. -/
lemma sound_step (h : s.Sound) {st : Step} (hst : st.Checked) : (s.step st).2.Sound := by
  cases st with
  | newWriter wordBits =>
    rw [step]
    split
    · exact h
    · next w _ => exact ⟨⟨[], Writer.holds_empty w⟩, h.input⟩
  | newListWriter => exact ⟨⟨[], rfl⟩, h.input⟩
  | openReader contents wordBits =>
    rw [step]
    split
    · exact h
    · next r hr =>
      obtain ⟨w, -, hopen⟩ := Except.bind_eq_ok_iff.mp hr
      refine ⟨h.output, ?_⟩
      have hopened : r.Opened := by
        refine opened_of_openContents ?_ hopen
        rintro words rfl
        exact hst
      rintro i ⟨⟩
      exact ⟨_, Input.hasAhead_opened hopened⟩
  | openList text =>
    refine ⟨h.output, ?_⟩
    rintro i ⟨⟩
    exact ⟨_, Nat.zero_le _, rfl⟩
  | write q =>
    obtain ⟨t, ht⟩ := h.output
    exact ⟨⟨_, (Output.write_holds ht q).2⟩, h.input⟩
  | askWriter query => exact h
  | read q =>
    rw [step]
    split
    · exact h
    · next i hi =>
      obtain ⟨t, ht⟩ := h.input i hi
      refine ⟨h.output, ?_⟩
      rintro i' ⟨⟩
      exact ⟨_, (Input.read_hasAhead ht q).2⟩
  | askReader query => exact h

/-- In a sound session a step that fails changes nothing. -/
lemma step_of_error (h : s.Sound) {st : Step} {e : Error}
    (he : (s.step st).1.answer = some (.error e)) : (s.step st).2 = s := by
  cases st with
  | newWriter wordBits =>
    rw [step] at he ⊢
    split
    · rfl
    · next hw => simp [hw] at he
  | newListWriter => cases he
  | openReader contents wordBits =>
    rw [step] at he ⊢
    split
    · rfl
    · next hr => simp [hr] at he
  | openList text => cases he
  | write q =>
    obtain ⟨t, ht⟩ := h.output
    have hfail := Except.map_eq_error_iff.mp (Option.some.inj he)
    show { s with output := (s.output.write q).2 } = s
    rw [Output.write_of_error ht hfail]
  | askWriter query => rfl
  | read q =>
    rw [step] at he ⊢
    split
    · rfl
    · next i hi =>
      obtain ⟨t, ht⟩ := h.input i hi
      rw [hi] at he
      have hfail := Except.map_eq_error_iff.mp (Option.some.inj he)
      show { s with input := some (i.read q).2 } = s
      rw [Input.read_of_error ht hfail, ← hi]
  | askReader query => rfl

/-- A step about the reader leaves the writer alone. -/
theorem step_output_eq (s : Session) {st : Step} (h : st.onReader = true) :
    (s.step st).2.output = s.output := by
  cases st with
  | openReader contents wordBits =>
    rw [step]
    split <;> rfl
  | read q =>
    rw [step]
    split <;> rfl
  | openList | askReader => rfl
  | newWriter | newListWriter | write | askWriter => cases h

/-- Any other step leaves the reader alone. -/
theorem step_input_eq (s : Session) {st : Step} (h : st.onReader = false) :
    (s.step st).2.input = s.input := by
  cases st with
  | newWriter wordBits =>
    rw [step]
    split <;> rfl
  | newListWriter | write | askWriter => rfl
  | openReader | openList | read | askReader => cases h

/-! ## Runs -/

/-- Behind every step of a run a sound session is sound. -/
lemma sound_trace (h : s.Sound) {steps : List Step} (hsteps : ∀ st ∈ steps, st.Checked) :
    ∀ x ∈ s.trace steps, x.2.Sound := by
  induction steps generalizing s with
  | nil => simp [trace]
  | cons st steps ih =>
    rw [List.forall_mem_cons] at hsteps
    have hstep := sound_step h hsteps.1
    rw [trace, List.forall_mem_cons]
    exact ⟨hstep, ih hstep hsteps.2⟩

/-- **What holds all along a session.**  Behind every step of a session that opens no reader over
unchecked words, the writer has as many bytes as its bits need, the reader stands within its bits
and has reached its end just when none remains, and a step that fails leaves everything as it
is. -/
theorem laws_trace {steps : List Step} (hsteps : ∀ st ∈ steps, st.Checked)
    {x : Outcome × Session} (hx : x ∈ start.2.trace steps) :
    x.2.output.bytes.length = byteCount x.2.output.bitLength ∧
      (∀ i ∈ x.2.input, i.position + i.bitsRemaining = i.capacity ∧
        (i.reachedEnd = true ↔ i.bitsRemaining = 0)) ∧
      ∀ (st : Step) (e : Error), (x.2.step st).1.answer = some (.error e) →
        (x.2.step st).2 = x.2 := by
  have hsound := sound_trace sound_start hsteps x hx
  obtain ⟨t, ht⟩ := hsound.output
  obtain ⟨hlength, hbytes⟩ := Output.counts_of_holds ht
  refine ⟨?_, ?_, fun st e he => step_of_error hsound he⟩
  · rw [hlength, hbytes, Bytes.length_ofBits]
  · intro i hi
    obtain ⟨u, hu⟩ := hsound.input i hi
    obtain ⟨hleft, hpos, hend⟩ := Input.counts_of_hasAhead hu
    rw [hleft]
    exact ⟨hpos, hend.trans List.length_eq_zero_iff.symm⟩

end Session
end BitPack
