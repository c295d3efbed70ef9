/-
# How reads fail

A read can fail in two ways.  It is refused when its arguments are out of bounds, whatever is
ahead; then nothing has been taken (`ReadRequest.valid_iff`).  A field may also be cut off by the
end of the stream, in a chunk or in front of a signal bit.  That is not an error: the read says
so, and it happens exactly where no field is at the front of what is ahead
(`Chunking.isTruncated_read_iff`).  In both places all that is ahead has been taken by then, so no
field is read from this reader again (`Reader.read_failures`).
-/
import BitPack.Proofs.SoftEnd
import BitPack.Proofs.Spelling

namespace BitPack

/-! ## Fields that are cut off -/

/-- The stream ended inside the field. -/
def FieldRead.IsTruncated : FieldRead → Prop
  | value _ => False
  | truncated .. => True

namespace Chunking

variable {c : Chunking} {f : Nat → Int} {t : Bits}

/-- A field is cut off exactly if none is at the front of what is ahead. -/
lemma isTruncated_read_iff :
    (c.read f t).1.IsTruncated ↔ ¬∃ u v, u <+: t ∧ c.Spells c.width.bits u v := by
  rw [← decode_eq_none_iff]
  rcases hd : c.decode t with _ | x
  · simp [read_of_none hd, FieldRead.IsTruncated]
  · simp [read_of_some hd, FieldRead.IsTruncated]

/-- A field that is cut off takes all that is ahead. -/
lemma read_eq_nil_of_isTruncated (h : (c.read f t).1.IsTruncated) : (c.read f t).2 = [] := by
  rw [isTruncated_read_iff, ← decode_eq_none_iff] at h
  rw [read_of_none h]

/-- No field is at the end of a stream. -/
lemma not_exists_spells_nil (c : Chunking) :
    ¬∃ u v, u <+: [] ∧ c.Spells c.width.bits u v := by
  rintro ⟨u, v, hu, hspells⟩
  have hlen := hspells.min_le_length
  have hpos := c.width.bits_pos
  rw [List.prefix_nil.mp hu, List.length_nil] at hlen
  omega

end Chunking

/-! ## Arguments -/

namespace ReadRequest

/-- The arguments of a request are within their bounds. -/
def Valid : ReadRequest → Prop
  | bits count => 0 ≤ count ∧ count ≤ 64
  | text count => 0 ≤ count ∧ count ≤ 64
  | bitset size count => 0 ≤ count.getD size ∧ count.getD size ≤ size ∧ count.getD size ≤ 64
  | unsigned chunkLength width =>
    (width = 8 ∨ width = 16 ∨ width = 32 ∨ width = 64) ∧ 1 ≤ chunkLength
  | signed chunkLength exponent width =>
    ((width = 8 ∨ width = 16 ∨ width = 32 ∨ width = 64) ∧ 1 ≤ chunkLength) ∧
      0 ≤ exponent ∧ exponent < width

variable {q : ReadRequest} {t : Bits}

/-- Just the requests with arguments within bounds are answered, whatever is ahead. -/
lemma valid_iff : q.Valid ↔ ∃ a, q.answer t = .ok a := by
  have hok : ∀ {α : Type} (a : α), ∃ b, (pure a : Except Error α) = .ok b := fun a => ⟨a, rfl⟩
  cases q with
  | bits count =>
    simp only [answer, Except.exists_bind_eq_ok_iff, hok, and_true, exists_checkCount_eq_ok_iff]
    rfl
  | text count =>
    simp only [answer, Except.exists_bind_eq_ok_iff, hok, and_true, exists_checkCount_eq_ok_iff]
    rfl
  | bitset size count =>
    simp only [answer, Except.exists_bind_eq_ok_iff, hok, and_true, checkCount_eq_ok_iff,
      maxRawBits]
    constructor
    · rintro ⟨h0, hsize, hmax⟩
      exact ⟨_, ⟨Int.toNat_of_nonneg h0, hsize⟩, _, rfl, by omega⟩
    · rintro ⟨n, ⟨hn, hsize⟩, -, -, hmax⟩
      exact ⟨by omega, hsize, by omega⟩
  | unsigned chunkLength width =>
    simp only [answer, Except.exists_bind_eq_ok_iff, hok, and_true,
      Chunking.exists_ofInts_eq_ok_iff]
    rfl
  | signed chunkLength exponent width =>
    simp only [answer, Except.exists_bind_eq_ok_iff, hok, and_true, exists_and_right,
      Chunking.exists_ofInts_eq_ok_iff, exists_checkZigzagExponent_eq_ok_iff]
    rfl

lemma failsAs_answer (t : Bits) (q : ReadRequest) : FailsAs (q.answer t) .contract := by
  cases q with
  | bits count => exact failsAs_bind (failsAs_checkCount _ _) fun _ => failsAs_ok _
  | text count => exact failsAs_bind (failsAs_checkCount _ _) fun _ => failsAs_ok _
  | bitset size count =>
    exact failsAs_bind (failsAs_checkCount _ _) fun _ =>
      failsAs_bind (failsAs_checkCount _ _) fun _ => failsAs_ok _
  | unsigned chunkLength width => exact failsAs_bind (failsAs_ofInts _ _) fun _ => failsAs_ok _
  | signed chunkLength exponent width =>
    exact failsAs_bind (failsAs_ofInts _ _) fun _ =>
      failsAs_bind (failsAs_checkZigzagExponent _ _) fun _ => failsAs_ok _

/-! ## Requests for fields -/

/-- The request is for a field, unsigned or signed. -/
def IsField : ReadRequest → Prop
  | unsigned .. | signed .. => True
  | bits _ | text _ | bitset .. => False

/-- The request is for a field in chunks of the given kind. -/
inductive ReadsField (c : Chunking) : ReadRequest → Prop
  | unsigned : ReadsField c (.unsigned c.length c.width.bits)
  | signed {k : Nat} (hk : k < c.width.bits) : ReadsField c (.signed c.length k c.width.bits)

/-- Every valid request for a field says in which chunks. -/
lemma exists_readsField (hfield : q.IsField) (hvalid : q.Valid) : ∃ c, q.ReadsField c := by
  cases q with
  | bits count => exact hfield.elim
  | text count => exact hfield.elim
  | bitset size count => exact hfield.elim
  | unsigned chunkLength width =>
    obtain ⟨c, hc⟩ := Chunking.exists_ofInts_eq_ok_iff.mpr hvalid
    obtain ⟨rfl, rfl⟩ := Chunking.ofInts_eq_ok_iff.mp hc
    exact ⟨c, .unsigned⟩
  | signed chunkLength exponent width =>
    obtain ⟨hchunks, hexponent⟩ := hvalid
    obtain ⟨c, hc⟩ := Chunking.exists_ofInts_eq_ok_iff.mpr hchunks
    obtain ⟨rfl, rfl⟩ := Chunking.ofInts_eq_ok_iff.mp hc
    obtain ⟨k, hcheck⟩ := exists_checkZigzagExponent_eq_ok_iff.mpr hexponent
    obtain ⟨rfl, hk⟩ := checkZigzagExponent_eq_ok_iff.mp hcheck
    exact ⟨c, .signed hk⟩

/-- Such a request is answered with a field, which may be cut off. -/
lemma ReadsField.answer_eq {c : Chunking} (h : q.ReadsField c) :
    ∃ f, ∀ t, q.answer t = .ok (.field (c.read f t).1, (c.read f t).2) := by
  cases h with
  | unsigned => exact ⟨Nat.cast, fun _ => answer_unsigned c⟩
  | signed hk => exact ⟨_, fun _ => answer_signed c hk⟩

end ReadRequest

/-! ## Readers -/

namespace Reader

open ReadRequest (attempts)

/-- The reader has been opened over words that fit, or over bytes. -/
inductive Opened : Reader → Prop
  | ofWords {w : Width} {words : List Int} {r : Reader} (h : ofWords w words = .ok r) : Opened r
  | ofBytes (w : Width) (data : Bytes) : Opened (ofBytes w data)

lemma Opened.fits {r : Reader} (h : r.Opened) : r.Fits := by
  cases h with
  | ofWords h =>
    obtain ⟨hfit, rfl⟩ := ofWords_eq_ok_iff.mp h
    exact hfit
  | ofBytes w data => exact fits_ofBytes w data

lemma Opened.position_eq {r : Reader} (h : r.Opened) : r.position = 0 := by
  cases h with
  | ofWords h =>
    obtain ⟨-, rfl⟩ := ofWords_eq_ok_iff.mp h
    rfl
  | ofBytes w data => rfl

section Ahead

variable {base r : Reader} {t : Bits} {q : ReadRequest} (hfit : base.Fits) (h : Ahead base r t)
include hfit h

/-- Just the requests with arguments out of bounds are refused, and then nothing is taken. -/
lemma run_refused (q : ReadRequest) :
    match q.run.run r with
    | .ok _ _ => q.Valid
    | .error e r' => ¬q.Valid ∧ e.kind = .contract ∧ r' = r := by
  have hread := ReadRequest.run_yields (faithful hfit) h q
  rcases ha : q.answer t with e | a
  · rw [ha] at hread
    have hrun : q.run.run r = .error e r := hread
    rw [hrun]
    refine ⟨?_, Error.kind_eq_contract (ReadRequest.failsAs_answer t q e ha), rfl⟩
    intro hvalid
    obtain ⟨a, hok⟩ := (ReadRequest.valid_iff (t := t)).mp hvalid
    simp [ha] at hok
  · rw [ha] at hread
    obtain ⟨r', hrun, -⟩ := hread
    rw [hrun]
    exact ReadRequest.valid_iff.mpr ⟨a, ha⟩

/-- A field is read or cut off, and one that is cut off has taken all that was ahead. -/
lemma run_readsField {c : Chunking} (hq : q.ReadsField c) :
    ∃ x r', q.run.run r = .ok (.field x) r' ∧
      (x.IsTruncated ↔ ¬∃ u v, u <+: t ∧ c.Spells c.width.bits u v) ∧
      (x.IsTruncated → Ahead base r' []) := by
  obtain ⟨f, hanswer⟩ := hq.answer_eq
  have hread := ReadRequest.run_yields (faithful hfit) h q
  rw [hanswer] at hread
  obtain ⟨r', hrun, h'⟩ := hread
  refine ⟨_, r', hrun, Chunking.isTruncated_read_iff, ?_⟩
  intro htruncated
  rwa [Chunking.read_eq_nil_of_isTruncated htruncated] at h'

end Ahead

/-- At the end of a reader every field is cut off, whatever is read in front of it. -/
lemma run_readsField_of_nil {base r : Reader} (hfit : base.Fits) (h : Ahead base r [])
    (qs : List ReadRequest) {q : ReadRequest} {c : Chunking} (hq : q.ReadsField c) :
    ∃ x r', q.run.run (attempts qs r).2 = .ok (.field x) r' ∧ x.IsTruncated := by
  have hlater := (ReadRequest.attempts_yields (faithful hfit) h qs).2
  rw [List.suffix_nil.mp (ReadRequest.rests_suffix [] qs)] at hlater
  obtain ⟨x, r', hrun, hiff, -⟩ := run_readsField hfit hlater hq
  exact ⟨x, r', hrun, hiff.mpr c.not_exists_spells_nil⟩

/-- **How reads fail.**  Behind any reads from an opened reader, a further one is refused exactly if
its arguments are out of bounds, which is an error of the arguments, and then nothing has been
taken.  A field that is asked for with valid arguments is never refused.  It is cut off exactly if
no field is at the front of what is ahead; then the reader is at its end, and every field that is
asked for later is cut off too. -/
theorem read_failures {r₀ : Reader} (h : r₀.Opened) (qs : List ReadRequest) :
    let r := (attempts qs r₀).2
    (∀ q : ReadRequest,
      match q.run.run r with
      | .ok _ _ => q.Valid
      | .error e r' => ¬q.Valid ∧ e.kind = .contract ∧ r' = r) ∧
    ∀ q : ReadRequest, q.IsField → q.Valid →
      ∃ c x r', q.ReadsField c ∧ q.run.run r = .ok (.field x) r' ∧
        (x.IsTruncated ↔ ¬∃ u v, u <+: r.ahead ∧ c.Spells c.width.bits u v) ∧
        (x.IsTruncated → r'.position = r.capacity ∧
          ∀ (qs' : List ReadRequest) (q' : ReadRequest), q'.IsField → q'.Valid →
            ∃ x' r'', q'.run.run (attempts qs' r').2 = .ok (.field x') r'' ∧
              x'.IsTruncated) := by
  intro r
  have hstart := ahead_start h.position_eq
  have hlater := (ReadRequest.attempts_yields (faithful h.fits) hstart qs).2
  have hahead : Ahead r₀ r r.ahead := by
    rw [ahead, hlater.drop_eq]
    exact hlater
  refine ⟨run_refused h.fits hahead, ?_⟩
  intro q hfield hvalid
  obtain ⟨c, hq⟩ := ReadRequest.exists_readsField hfield hvalid
  obtain ⟨x, r', hrun, hiff, hend⟩ := run_readsField h.fits hahead hq
  refine ⟨c, x, r', hq, hrun, hiff, fun htruncated => ⟨?_, ?_⟩⟩
  · have hposition := position_of_ahead (hend htruncated)
    rwa [← capacity_of_ahead hahead] at hposition
  · intro qs' q' hfield' hvalid'
    obtain ⟨c', hq'⟩ := ReadRequest.exists_readsField hfield' hvalid'
    exact run_readsField_of_nil h.fits (hend htruncated) qs' hq'

/-- A byte ends in front of a signal bit, and too many bits are refused. -/
theorem read_failures_cut_byte :
    let r : Reader := ⟨.w8, #[255], 0⟩
    r.Opened ∧ (∃ e, (ReadRequest.bits 65).run.run r = .error e r ∧ e.kind = .contract) ∧
      ∃ x r', (ReadRequest.unsigned 8 16).run.run r = .ok (.field x) r' ∧ x.IsTruncated ∧
        r'.position = r.capacity := by
  intro r
  have hopened : r.Opened := .ofWords (show ofWords .w8 [255] = .ok r from rfl)
  obtain ⟨hrefused, hfields⟩ := read_failures hopened []
  refine ⟨hopened, ?_, ?_⟩
  · have h65 := hrefused (.bits 65)
    split at h65
    · exact absurd h65 (by simp [ReadRequest.Valid])
    · next e r' hrun =>
      obtain ⟨-, hkind, rfl⟩ := h65
      exact ⟨e, hrun, hkind⟩
  · obtain ⟨c, x, r', hq, hrun, hiff, hend⟩ :=
      hfields (.unsigned 8 16) trivial (by simp [ReadRequest.Valid])
    have htruncated : x.IsTruncated := by
      rw [hiff]
      rintro ⟨u, v, hu, hspells⟩
      generalize hrequest : ReadRequest.unsigned 8 16 = q at hq
      rcases hq with _ | _
      · -- the shortest field takes nine bits
        obtain ⟨hlength, hwidth⟩ : (8 : Int) = c.length ∧ (16 : Int) = c.width.bits := by
          simpa using hrequest
        have hshort := hu.length_le
        rw [length_ahead, show (attempts [] r).2.bitsRemaining = 8 from rfl] at hshort
        have hlong := hspells.min_le_length
        omega
      · cases hrequest
    exact ⟨x, r', hrun, htruncated, (hend htruncated).1⟩

end Reader
end BitPack
