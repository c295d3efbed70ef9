/-
# The decoding loop

Decoding goes round a loop: each round reads a field and appends its value.  The loop goes on up to
the number of values it was asked for or, when it was asked for all of them, up to the soft end of
the reader.  `Params.Reaches` says which states it passes through.  At any of them the values read
are those of the fields at the front of the bits (`Params.Reaches.readsOff`), and every one of them
takes a chunk with its signal bit, or the width.  So the bits bound the number of rounds
(`Params.Reaches.mul_le`), and the loop ends on any data (`decodeAll_ends`).

It can also end inside a field.  Then the reader is used up, and all that was left in front of the
field is payload but for one bit behind each full chunk (`Params.EndsInside`).  Since nothing but
such an end is reported by the loop, all events of decoding are known (`decode_events`).
-/
import BitPack.Proofs.Sequences
import BitPack.Proofs.SoftEnd
import BitPack.Proofs.Spelling

namespace BitPack

/-- A run that ends inside a field holds less payload than is left of the width. -/
lemma Chunking.payloadOf_lt {c : Chunking} {left : Nat} {t : Bits}
    (h : c.decodeFrom left t = none) : c.payloadOf t.length < left := by
  have hc := c.length_pos
  induction left using Nat.strongRecOn generalizing t with
  | _ left ih =>
    by_cases hlast : left ≤ c.length
    · rw [decodeFrom_last hlast, ite_eq_right_iff] at h
      have hlen : t.length < left := Nat.lt_of_not_le fun hle => by cases h hle
      rwa [payloadOf_of_le (by omega)]
    · by_cases hlen : t.length ≤ c.length
      · rw [payloadOf_of_le hlen]
        omega
      · have hchunk : (t.take c.length).length = c.length := List.length_take_of_le (by omega)
        have hsplit : t.take c.length ++ t[c.length] :: t.drop (c.length + 1) = t := by
          rw [← List.drop_eq_getElem_cons, List.take_append_drop]
        rw [← hsplit, decodeFrom_chunk hlast hchunk] at h
        cases hsignal : t[c.length] with
        | false =>
          rw [hsignal] at h
          cases h
        | true =>
          -- more chunks are asked for, and the run ends inside these
          rw [hsignal, if_pos rfl, Option.map_eq_none_iff] at h
          have hrest := ih _ (by omega) h
          have hlength : t.length = c.length + 1 + (t.drop (c.length + 1)).length := by
            rw [List.length_drop]
            omega
          rw [hlength, payloadOf_chunk]
          omega

namespace Params

variable {p : Params}

/-! ## Fields at the front of a run -/

namespace ReadsOff

variable {t mid rest : Bits} {u : Nat} {vs : List Int}

/-- One more field is read off behind others. -/
lemma snoc (h : p.ReadsOff t vs mid) (hd : p.chunking.decode mid = some (u, rest)) :
    p.ReadsOff t (vs ++ [p.value u]) rest := by
  induction h with
  | nil t => exact .cons hd (.nil rest)
  | cons hfirst _ ih => exact .cons hfirst (ih hd)

/-- Every value read off takes up a chunk with its signal bit, or the width. -/
lemma mul_le (h : p.ReadsOff t vs rest) :
    vs.length * min (p.chunkLength + 1) p.width.bits + rest.length ≤ t.length := by
  induction h with
  | nil t => simp
  | @cons t mid rest u vs hd _ ih =>
    have hfield : min p.width.bits (p.chunkLength + 1) + mid.length ≤ t.length :=
      Chunking.min_add_length_le_of_decode hd
    rw [Nat.min_comm] at hfield
    rw [List.length_cons, Nat.succ_mul]
    omega

end ReadsOff

/-! ## One round -/

variable {base r r' : Reader} {v : Int}

/-- The payload bits among those that remain if the stream ends inside a field: behind every full
chunk there is one signal bit. -/
def payloadLeft (p : Params) (r : Reader) : Nat :=
  r.bitsRemaining - r.bitsRemaining / (p.chunkLength + 1)

/-- The stream ends inside the field at a reader, which leaves another one with nothing ahead.  All
payload bits that remained have been taken, fewer than the width has. -/
structure EndsInside (p : Params) (r r' : Reader) : Prop where
  run_eq : p.readField.run r =
    .ok (.truncated p.chunkLength p.width.bits (p.payloadLeft r)) r'
  payloadLeft_lt : p.payloadLeft r < p.width.bits
  position_eq : r'.position = r.capacity

section Round

variable (hfit : base.Fits) (h : Reader.Ahead base r r.ahead)
include hfit h

/-- A value that is read is that of the field ahead. -/
lemma exists_decode_of_readField (hread : p.readField.run r = .ok (.value v) r') :
    ∃ u, p.chunking.decode r.ahead = some (u, r'.ahead) ∧ v = p.value u ∧
      Reader.Ahead base r' r'.ahead := by
  rcases hd : p.chunking.decode r.ahead with _ | ⟨u, rest⟩
  · obtain ⟨s, hrun, -⟩ := readField_of_none hfit hd h
    rw [hread] at hrun
    cases hrun
  · obtain ⟨s, hrun, hs⟩ := readField_of_some hfit hd h
    rw [hread] at hrun
    cases hrun
    obtain rfl : r'.ahead = rest := by rw [Reader.ahead, hs.drop_eq]
    exact ⟨u, rfl, rfl, hs⟩

/-- If no whole field is ahead, the stream ends inside one. -/
lemma exists_endsInside (hd : p.chunking.decode r.ahead = none) : ∃ r', p.EndsInside r r' := by
  obtain ⟨r', hrun, h'⟩ := readField_of_none hfit hd h
  have hlt := Chunking.payloadOf_lt hd
  have hpos := Reader.position_of_ahead h'
  rw [Reader.length_ahead] at hrun hlt
  exact ⟨r', hrun, hlt, by rwa [Reader.capacity_of_ahead h]⟩

lemma EndsInside.decode_eq_none (hend : p.EndsInside r r') :
    p.chunking.decode r.ahead = none := by
  rcases hd : p.chunking.decode r.ahead with _ | ⟨u, rest⟩
  · rfl
  · obtain ⟨s, hrun, -⟩ := readField_of_some hfit hd h
    rw [hend.run_eq] at hrun
    cases hrun

/-- A round reads a value, or the stream ends inside its field. -/
lemma readField_cases (p : Params) :
    (∃ v r', p.readField.run r = .ok (.value v) r') ∨ ∃ r', p.EndsInside r r' := by
  rcases hd : p.chunking.decode r.ahead with _ | ⟨u, rest⟩
  · exact .inr (exists_endsInside hfit h hd)
  · obtain ⟨r', hrun, -⟩ := readField_of_some hfit hd h
    exact .inl ⟨_, r', hrun⟩

end Round

/-! ## The states of the loop -/

/-- Whether the loop goes on at a reader behind `k` values. -/
def GoesOn : Option Nat → Nat → Reader → Prop
  | some n, k, _ => k < n
  | none, _, r => r.onlyZeroesLeft = false

lemma not_goesOn_none_iff {k : Nat} : ¬GoesOn none k r ↔ r.onlyZeroesLeft = true := by
  rw [GoesOn, Bool.not_eq_false]

/-- The loop, begun at a reader, has read some values and is at another one. -/
inductive Reaches (p : Params) (count : Option Nat) (start : Reader) : List Int → Reader → Prop
  | start : p.Reaches count start [] start
  | step {vs : List Int} {v : Int} {r r' : Reader} (h : p.Reaches count start vs r)
      (hgo : GoesOn count vs.length r) (hread : p.readField.run r = .ok (.value v) r') :
      p.Reaches count start (vs ++ [v]) r'

variable {count : Option Nat} {start : Reader} {vs : List Int}

section Reaches

variable (hfit : start.Fits) (hstart : start.position = 0)
include hfit hstart

/-- The values read are those of the fields at the front, and what follows these is ahead. -/
lemma Reaches.readsOff (h : p.Reaches count start vs r) :
    p.ReadsOff start.bits vs r.ahead ∧ Reader.Ahead start r r.ahead := by
  induction h with
  | start =>
    rw [Reader.ahead, hstart, List.drop_zero]
    exact ⟨.nil _, Reader.ahead_start hstart⟩
  | step _ _ hread ih =>
    obtain ⟨u, hd, rfl, hahead⟩ := exists_decode_of_readField hfit ih.2 hread
    exact ⟨ih.1.snoc hd, hahead⟩

lemma Reaches.mul_le (h : p.Reaches count start vs r) :
    vs.length * min (p.chunkLength + 1) p.width.bits ≤ r.position := by
  obtain ⟨hvs, hahead⟩ := h.readsOff hfit hstart
  have hroom := hvs.mul_le
  have hpos := Reader.position_of_ahead hahead
  rw [Reader.length_bits] at hroom
  omega

end Reaches

/-! ## The end of the loop -/

/-- How the loop goes to its end from a state in which it has read `vs`: it reads further values
and stops, or the stream ends inside a field. -/
def EndsAs (p : Params) (count : Option Nat) (start : Reader) (vs : List Int)
    (d : Traced (List Int)) : Prop :=
  ∃ us r, p.Reaches count start (vs ++ us) r ∧
    ((¬GoesOn count (vs ++ us).length r ∧ d = pure us) ∨
      GoesOn count (vs ++ us).length r ∧ ∃ r', p.EndsInside r r' ∧
        d = truncatedAt (vs ++ us).length count
          (.truncated p.chunkLength p.width.bits (p.payloadLeft r)) r')

section EndsAs

variable {d : Traced (List Int)}

lemma endsAs_stop (h : p.Reaches count start vs r) (hstop : ¬GoesOn count vs.length r) :
    p.EndsAs count start vs (pure []) := by
  refine ⟨[], r, ?_, .inl ⟨?_, rfl⟩⟩
  · rwa [List.append_nil]
  · rwa [List.append_nil]

lemma endsAs_truncatedAt (h : p.Reaches count start vs r) (hgo : GoesOn count vs.length r)
    (hend : p.EndsInside r r') :
    p.EndsAs count start vs (truncatedAt vs.length count
      (.truncated p.chunkLength p.width.bits (p.payloadLeft r)) r') := by
  refine ⟨[], r, ?_, .inr ⟨?_, r', hend, ?_⟩⟩
  · rwa [List.append_nil]
  · rwa [List.append_nil]
  · rw [List.append_nil]

/-- A value is put in front of those that the rounds behind it read. -/
lemma endsAs_cons (h : p.EndsAs count start (vs ++ [v]) d) :
    p.EndsAs count start vs (d >>= fun us => pure (v :: us)) := by
  obtain ⟨us, r, hreach, hend⟩ := h
  rw [List.append_assoc, List.singleton_append] at hreach hend
  refine ⟨v :: us, r, hreach, ?_⟩
  rcases hend with ⟨hstop, rfl⟩ | ⟨hgo, r', hinside, rfl⟩
  · exact .inl ⟨hstop, rfl⟩
  · exact .inr ⟨hgo, r', hinside, rfl⟩

end EndsAs

section Run

variable (hfit : start.Fits) (hstart : start.position = 0)
include hfit hstart

lemma endsAs_decodeAllFrom (h : p.Reaches none start vs r) :
    p.EndsAs none start vs (decodeAllFrom p vs.length r) := by
  induction hm : r.bitsRemaining using Nat.strongRecOn generalizing vs r with
  | _ m ih =>
    rcases hsoft : r.onlyZeroesLeft with _ | _
    · rcases readField_cases hfit (h.readsOff hfit hstart).2 p with ⟨v, r', hread⟩ | ⟨r', hend⟩
      · have hlt := p.bitsRemaining_readField_lt hread
        have hnext := ih _ (hm ▸ hlt) (h.step hsoft hread) rfl
        rw [List.length_append, List.length_singleton] at hnext
        rw [decodeAllFrom_of_value hsoft hread]
        exact endsAs_cons hnext
      · rw [decodeAllFrom_of_truncated hsoft hend.run_eq]
        exact endsAs_truncatedAt h hsoft hend
    · rw [decodeAllFrom_of_onlyZeroesLeft hsoft]
      exact endsAs_stop h (not_goesOn_none_iff.mpr hsoft)

lemma endsAs_decodeFrom {n left : Nat} (h : p.Reaches (some n) start vs r)
    (hleft : vs.length + left = n) :
    p.EndsAs (some n) start vs (decodeFrom p n vs.length left r) := by
  induction left generalizing vs r with
  | zero => exact endsAs_stop h (Nat.not_lt_of_le (Nat.le_of_eq hleft.symm))
  | succ left ih =>
    have hgo : GoesOn (some n) vs.length r := by
      show vs.length < n
      omega
    rcases readField_cases hfit (h.readsOff hfit hstart).2 p with ⟨v, r', hread⟩ | ⟨r', hend⟩
    · have hnext := ih (h.step hgo hread) (by rw [List.length_append, List.length_singleton]; omega)
      rw [List.length_append, List.length_singleton] at hnext
      rw [decodeFrom, hread]
      exact endsAs_cons hnext
    · rw [decodeFrom, hend.run_eq]
      exact endsAs_truncatedAt h hgo hend

end Run
end Params

/-! ## Decoding bytes -/

section Bytes

variable (p : Params) (w : Width) (data : Bytes)

lemma Reader.capacity_ofBytes :
    (Reader.ofBytes w data).capacity = w.bits * wordsNeeded w.bits (8 * data.length) := by
  rw [← Reader.length_bits, Reader.bits_ofBytes, Bits.length_pad w.bits_pos, Bytes.length_toBits]

/-- Decodes a number of values, or all of them. -/
def decodeUpTo (p : Params) (w : Width) (data : Bytes) : Option Nat → Traced (List Int)
  | some n => decode p w data n
  | none => decodeAll p w data

lemma decodeUpTo_eq (count : Option Nat) :
    ∃ d, p.EndsAs count (Reader.ofBytes w data) [] d ∧
      decodeUpTo p w data count =
        ⟨(Reader.ofBytes w data).created :: d.events, d.result⟩ := by
  have hfit := Reader.fits_ofBytes w data
  cases count with
  | none => exact ⟨_, Params.endsAs_decodeAllFrom hfit rfl .start, rfl⟩
  | some n =>
    refine ⟨_, Params.endsAs_decodeFrom hfit rfl .start (Nat.zero_add n), ?_⟩
    rw [decodeUpTo, decode, if_neg (Int.not_lt.mpr (Int.natCast_nonneg n))]
    rfl

end Bytes

/-- **Decoding all values ends.**  Whatever the bytes are, the values that the loop has read at any
time have each taken a chunk with its signal bit, or the width, so their number is bounded by the
bits of the words, and so is that of the rounds.  The loop ends with all its values at the soft end
of the reader, or else with an error of decoding, inside the field behind the last of them. -/
theorem decodeAll_ends (p : Params) (w : Width) (data : Bytes) :
    let start := Reader.ofBytes w data
    let room := w.bits * wordsNeeded w.bits (8 * data.length)
    (∀ vs r, p.Reaches none start vs r →
      vs.length * min (p.chunkLength + 1) p.width.bits ≤ r.position ∧ r.position ≤ room) ∧
    ∃ vs r, p.Reaches none start vs r ∧
      (r.onlyZeroesLeft = true ∧ (decodeAll p w data).result = .ok vs ∨
        r.onlyZeroesLeft = false ∧ (∃ r', p.EndsInside r r') ∧
          (decodeAll p w data).result = .error (.truncated vs.length none)) := by
  intro start room
  have hfit : start.Fits := Reader.fits_ofBytes w data
  refine ⟨?_, ?_⟩
  · intro vs r h
    refine ⟨h.mul_le hfit rfl, ?_⟩
    obtain ⟨-, hahead⟩ := h.readsOff hfit rfl
    have hle := hahead.position_le
    rwa [Reader.capacity_of_ahead hahead, Reader.capacity_ofBytes] at hle
  · obtain ⟨d, ⟨vs, r, hreach, hend⟩, hd⟩ := decodeUpTo_eq p w data none
    have hresult : (decodeUpTo p w data none).result = d.result := by rw [hd]
    refine ⟨vs, r, hreach, ?_⟩
    rw [show (decodeAll p w data).result = _ from hresult]
    rcases hend with ⟨hstop, rfl⟩ | ⟨hgo, r', hinside, rfl⟩
    · exact .inl ⟨Params.not_goesOn_none_iff.mp hstop, rfl⟩
    · exact .inr ⟨hgo, ⟨r', hinside⟩, rfl⟩

/-- **The events of decoding.**  Any bytes are decoded, up to a number of values or all of them,
with a single event, that of making the reader, or fail inside the field behind some values.  In
that case two more events follow: the field that was cut off, with the payload bits among those that
remained in front of it, and the failure, with the number of values and the position, which is the
end of the words. -/
theorem decode_events (p : Params) (w : Width) (data : Bytes) (count : Option Nat) :
    let d := decodeUpTo p w data count
    let capacity := w.bits * wordsNeeded w.bits (8 * data.length)
    match d.result with
    | .ok _ =>
      d.events = [.readerCreated w.bits capacity] ∧
        d.events.map Event.name = ["bit reader created"]
    | .error e =>
      ∃ vs r r', p.Reaches count (Reader.ofBytes w data) vs r ∧
        Params.GoesOn count vs.length r ∧ p.EndsInside r r' ∧ e = .truncated vs.length count ∧
        d.events = [.readerCreated w.bits capacity,
          .readTruncated p.chunkLength p.width.bits (p.payloadLeft r),
          .decodeFailed vs.length count capacity] ∧
        d.events.map Event.name =
          ["bit reader created", "variable width read truncated", "decode failed"] := by
  intro d capacity
  obtain ⟨d', ⟨vs, r, hreach, hend⟩, hd⟩ := decodeUpTo_eq p w data count
  have hcreated : (Reader.ofBytes w data).created = .readerCreated w.bits capacity :=
    congrArg (Event.readerCreated w.bits) (Reader.capacity_ofBytes w data)
  rw [hcreated] at hd
  rcases hend with ⟨-, rfl⟩ | ⟨hgo, r', hinside, rfl⟩
  · rw [show d = _ from hd]
    exact ⟨rfl, rfl⟩
  · obtain ⟨-, hahead⟩ := hreach.readsOff (Reader.fits_ofBytes w data) rfl
    have hposition : r'.position = capacity := by
      rw [hinside.position_eq, Reader.capacity_of_ahead hahead, Reader.capacity_ofBytes]
    rw [show d = _ from hd]
    refine ⟨vs, r, r', hreach, hgo, hinside, rfl, ?_, rfl⟩
    rw [← hposition]
    rfl

end BitPack
