/-
# Fields that are longer than their codes

A reader takes whatever spells a number, and a number may be spelt in more chunks than it needs:
zeros above its highest set bit may fill chunks of their own, and the last of them may be ended by
its signal bit or by the width.  The code is the spelling without such chunks.  The main facts are

* `Chunking.Spells.toNat_chunksFrom`: a field spells the number that its chunks make up;
* `Chunking.Spells.eq_encodeFrom_iff`: it is the code unless it has several chunks the last of
  which is zero;
* `Chunking.Spells.eq_or_length_lt`: otherwise it is longer than the code, so the code is the
  only shortest run that is read as the number;
* `Reader.accepted_fields`: all this of what a reader reads at any position.
-/
import BitPack.Proofs.BlockZigzag
import BitPack.Proofs.ListReader
import BitPack.Proofs.ReadFailures
import BitPack.Proofs.Sizes

namespace BitPack

namespace Chunking

variable {c : Chunking} {left v : Nat} {s t u : Bits}

/-! ## Chunks -/

/-- The payload bits of each chunk at the front of a run when `left` bits of the width are left:
behind a chunk comes another one if the signal bit is set. -/
def chunksFrom (c : Chunking) (left : Nat) (s : Bits) : List Bits :=
  if left ≤ c.length then [s.take left]
  else
    match s.drop c.length with
    | true :: t => s.take c.length :: chunksFrom c (left - c.length) t
    | _ => [s.take c.length]
termination_by left
decreasing_by
  have := c.length_pos
  omega

/-- The payload bits of each chunk of the field at the front of a run. -/
def chunks (c : Chunking) (s : Bits) : List Bits := c.chunksFrom c.width.bits s

lemma chunksFrom_last (h : left ≤ c.length) (hs : s.length = left) : c.chunksFrom left s = [s] := by
  rw [chunksFrom, if_pos h, List.take_of_length_le (by omega)]

lemma chunksFrom_stop (h : ¬left ≤ c.length) (hs : s.length = c.length) :
    c.chunksFrom left (s ++ [false]) = [s] := by
  rw [chunksFrom, if_neg h, List.drop_left' hs, List.take_left' hs]

lemma chunksFrom_more (h : ¬left ≤ c.length) (hs : s.length = c.length) (t : Bits) :
    c.chunksFrom left (s ++ true :: t) = s :: c.chunksFrom (left - c.length) t := by
  rw [chunksFrom, if_neg h, List.drop_left' hs, List.take_left' hs]

lemma chunksFrom_ne_nil (c : Chunking) (left : Nat) (s : Bits) : c.chunksFrom left s ≠ [] := by
  rw [chunksFrom]
  split
  · simp
  · split <;> simp

/-- The last chunk has no set bit. -/
def EndsInZeros (cs : List Bits) : Prop := ∀ last ∈ cs.getLast?, ∀ b ∈ last, b = false

/-- There are several chunks, and the last one has no set bit. -/
def Redundant (cs : List Bits) : Prop := 1 < cs.length ∧ EndsInZeros cs

lemma not_redundant_singleton (s : Bits) : ¬Redundant [s] := fun h => absurd h.1 (by simp)

lemma redundant_cons_iff {cs : List Bits} (h : cs ≠ []) : Redundant (s :: cs) ↔ EndsInZeros cs := by
  obtain ⟨d, ds, rfl⟩ := List.exists_cons_of_ne_nil h
  rw [Redundant, EndsInZeros, List.getLast?_cons_cons]
  exact and_iff_right (by simp)

/-- Chunks that make up zero end in zeros. -/
lemma endsInZeros_of_toNat_flatten {cs : List Bits} (h : Bits.toNat cs.flatten = 0) :
    EndsInZeros cs := by
  rw [Bits.toNat_eq_zero_iff] at h
  intro last hlast b hb
  exact h b (List.mem_flatten.mpr ⟨last, List.mem_of_getLast? hlast, hb⟩)

/-- Chunks that make up a number above zero are several if they end in zeros. -/
lemma redundant_iff_endsInZeros {cs : List Bits} (h : Bits.toNat cs.flatten ≠ 0) :
    Redundant cs ↔ EndsInZeros cs := by
  refine ⟨fun hcs => hcs.2, fun hzeros => ⟨?_, hzeros⟩⟩
  rw [Ne, Bits.toNat_eq_zero_iff] at h
  rcases cs with _ | ⟨d, _ | ⟨d', ds⟩⟩
  · simp at h
  · -- a single chunk that ends in zeros makes up zero
    exact absurd (by simpa [EndsInZeros] using hzeros) h
  · simp

/-! ## Spellings -/

lemma encodeFrom_toNat_last (h : left ≤ c.length) (hs : s.length = left) :
    c.encodeFrom left (Bits.toNat s) = s := by
  rw [encodeFrom_last h, ← hs, Bits.ofInt_toNat]

lemma encodeFrom_toNat_stop (h : ¬left ≤ c.length) (hs : s.length = c.length) :
    c.encodeFrom left (Bits.toNat s) = s ++ [false] := by
  rw [encodeFrom_stop h (hs ▸ Bits.toNat_lt s), ← hs, Bits.ofInt_toNat]

/-- The code of a number that goes on behind its first chunk. -/
lemma encodeFrom_toNat_more (h : ¬left ≤ c.length) (hs : s.length = c.length) (hv : v ≠ 0) :
    c.encodeFrom left (Bits.toNat s + 2 ^ c.length * v) =
      s ++ true :: c.encodeFrom (left - c.length) v := by
  have hlt := Bits.toNat_lt s
  rw [hs] at hlt
  have hge : 2 ^ c.length ≤ 2 ^ c.length * v :=
    Nat.le_mul_of_pos_right _ (Nat.pos_of_ne_zero hv)
  have hdiv : (Bits.toNat s + 2 ^ c.length * v) / 2 ^ c.length = v := by
    rw [Nat.add_mul_div_left _ _ (Nat.two_pow_pos _), Nat.div_eq_of_lt hlt, Nat.zero_add]
  have hlow : Bits.ofInt c.length (Bits.toNat s + 2 ^ c.length * v : Nat) = s := by
    refine Bits.toNat_inj (by rw [Bits.length_ofInt, hs]) ?_
    rw [Bits.toNat_ofInt, Bits.low_natCast, Nat.add_mul_mod_self_left, Nat.mod_eq_of_lt hlt]
  rw [encodeFrom_more h (by omega), hlow, hdiv]

namespace Spells

/-- The chunks of a field make up the number that it spells. -/
lemma toNat_chunksFrom (h : c.Spells left u v) :
    Bits.toNat (c.chunksFrom left u).flatten = v := by
  induction h with
  | last h hs => rw [chunksFrom_last h hs, List.flatten_singleton]
  | stop h hs => rw [chunksFrom_stop h hs, List.flatten_singleton]
  | more h hs _ ih =>
    rw [chunksFrom_more h hs, List.flatten_cons, Bits.toNat_append, ih, hs]

lemma length_pos (h : c.Spells left u v) (hleft : 0 < left) : 0 < u.length := by
  have := h.min_le_length
  omega

/-- A signal bit follows each full chunk in front of the last one. -/
lemma length_le (h : c.Spells left u v) (hleft : 0 < left) :
    u.length ≤ left + (left - 1) / c.length := by
  induction h with
  | last h hs => exact hs ▸ Nat.le_add_right _ _
  | @stop left s h hs =>
    have hfull : 1 ≤ (left - 1) / c.length :=
      (Nat.le_div_iff_mul_le c.length_pos).mpr (by omega)
    rw [List.length_append, List.length_singleton]
    omega
  | more h hs _ ih =>
    have hrest := ih (by omega)
    rw [List.length_append, List.length_cons, pred_div_length h]
    omega

/-- A spelling is the code or longer than it. -/
lemma eq_or_length_lt (h : c.Spells left u v) (hleft : 0 < left) :
    u = c.encodeFrom left v ∨ (c.encodeFrom left v).length < u.length := by
  induction h with
  | last h hs => exact .inl (encodeFrom_toNat_last h hs).symm
  | stop h hs => exact .inl (encodeFrom_toNat_stop h hs).symm
  | @more left v s t h hs ht ih =>
    by_cases hv : v = 0
    · -- the code stops behind the first chunk
      have hpos := ht.length_pos (by omega)
      rw [hv, Nat.mul_zero, Nat.add_zero, encodeFrom_toNat_stop h hs]
      right
      simp only [List.length_append, List.length_cons, List.length_nil]
      omega
    · rw [encodeFrom_toNat_more h hs hv]
      rcases ih (by omega) with heq | hlt
      · exact .inl (by rw [← heq])
      · right
        simp only [List.length_append, List.length_cons]
        omega

/-- A spelling is the code unless its last chunk is one too many. -/
lemma eq_encodeFrom_iff (h : c.Spells left u v) :
    u = c.encodeFrom left v ↔ ¬Redundant (c.chunksFrom left u) := by
  induction h with
  | last h hs =>
    rw [encodeFrom_toNat_last h hs, chunksFrom_last h hs]
    exact iff_of_true rfl (not_redundant_singleton _)
  | stop h hs =>
    rw [encodeFrom_toNat_stop h hs, chunksFrom_stop h hs]
    exact iff_of_true rfl (not_redundant_singleton _)
  | @more left v s t h hs ht ih =>
    have hnumber := ht.toNat_chunksFrom
    rw [chunksFrom_more h hs, redundant_cons_iff (c.chunksFrom_ne_nil _ _)]
    by_cases hv : v = 0
    · -- the chunks behind the first one make up zero
      have hzeros := endsInZeros_of_toNat_flatten (hnumber.trans hv)
      rw [hv, Nat.mul_zero, Nat.add_zero, encodeFrom_toNat_stop h hs]
      exact iff_of_false (by simp) (not_not_intro hzeros)
    · rw [encodeFrom_toNat_more h hs hv, List.append_cancel_left_eq, List.cons.injEq,
        and_iff_right rfl, ih, redundant_iff_endsInZeros (hnumber ▸ hv)]

end Spells

/-- A field that is read is spelt by the bits that are taken. -/
lemma exists_spells_of_read {f : Nat → Int} {x : Int} (h : (c.read f t).1 = .value x) :
    ∃ v u, x = f v ∧ t = u ++ (c.read f t).2 ∧ c.Spells c.width.bits u v := by
  rcases hd : c.decode t with _ | ⟨v, rest⟩
  · simp [read_of_none hd] at h
  · obtain ⟨u, hu, hspells⟩ := exists_spells_of_decodeFrom hd
    rw [read_of_some hd] at h ⊢
    exact ⟨v, u, (FieldRead.value.inj h).symm, hu, hspells⟩

/-! ## Codes -/

/-- Writing a number appends the given bits to a writer over words of any size, whatever has been
written before. -/
def Writes (c : Chunking) (v : Nat) (u : Bits) : Prop :=
  ∀ w qs, let wr := (WriteRequest.attempts qs (Writer.empty w)).2
    ∃ wr', (BitSink.writeUnsigned v c.length c.width.bits).run wr = .ok () wr' ∧
      wr'.contents = wr.contents ++ u

/-- What is written is the code. -/
lemma writes_iff (hv : v < 2 ^ c.width.bits) : c.Writes v u ↔ u = c.encode v := by
  have hcode : c.Writes v (c.encode v) := by
    intro w qs wr
    have hholds : Writer.Holds w wr (WriteRequest.streams qs) := Writer.holds_attempts w qs
    have hwrite := BitSink.appends_writeUnsigned (Writer.faithful w) hholds v c.length c.width.bits
    rw [stream_unsigned_eq_ok_iff.mpr ⟨c, v, rfl, rfl, rfl, hv, rfl⟩] at hwrite
    obtain ⟨wr', hrun, hholds'⟩ := hwrite
    refine ⟨wr', hrun, ?_⟩
    rw [Writer.contents_of_holds hholds', Writer.contents_of_holds hholds]
  constructor
  · intro h
    obtain ⟨wr, hrun, hcontents⟩ := h .w8 []
    obtain ⟨wr', hrun', hcontents'⟩ := hcode .w8 []
    obtain rfl : wr = wr' := by
      rw [hrun] at hrun'
      exact (EStateM.Result.ok.inj hrun').2
    exact List.append_cancel_left (hcontents.symm.trans hcontents')
  · rintro rfl
    exact hcode

/-- What a number that is read has to do with the bits that are taken.  It fits the width and is
made up of the chunks that are read.  The bits are no fewer than the number has to have and no more
than the width has with a signal bit for each full chunk.  They are what is written for the number
just if they are as many as it has to have, and something else just if several chunks are read and
the last one is zero. -/
structure Accepts (c : Chunking) (u : Bits) (v : Nat) : Prop where
  lt : v < 2 ^ c.width.bits
  toNat_chunks : Bits.toNat (c.chunks u).flatten = v
  le_length : ∃ n, unsignedSize v c.length c.width.bits = .ok n ∧ n ≤ u.length
  length_le : u.length ≤ c.width.bits + (c.width.bits - 1) / c.length
  writes_iff : c.Writes v u ↔ unsignedSize v c.length c.width.bits = .ok u.length
  not_writes_iff : ¬c.Writes v u ↔ Redundant (c.chunks u)

lemma Spells.accepts (h : c.Spells c.width.bits u v) : c.Accepts u v := by
  have hlt : v < 2 ^ c.width.bits := by
    have hread := h.decodeFrom_append []
    exact lt_of_decodeFrom hread
  have hsize : unsignedSize v c.length c.width.bits = .ok (c.encode v).length :=
    unsignedSize_eq_ok_iff.mpr ⟨v, rfl, hlt, (c.length_encode v).symm⟩
  have hshort := h.eq_or_length_lt c.width.bits_pos
  rw [← encode] at hshort
  refine ⟨hlt, h.toNat_chunksFrom, ⟨_, hsize, ?_⟩, h.length_le c.width.bits_pos, ?_, ?_⟩
  · rcases hshort with rfl | hlonger
    · exact Nat.le_refl _
    · exact Nat.le_of_lt hlonger
  · rw [Chunking.writes_iff hlt, hsize, Except.ok.injEq]
    constructor
    · rintro rfl
      rfl
    · intro hlen
      rcases hshort with heq | hlonger
      · exact heq
      · omega
  · rw [Chunking.writes_iff hlt, ← not_iff_not, Decidable.not_not]
    exact h.eq_encodeFrom_iff

end Chunking

/-! ## Reading -/

section Reading

variable {σ : Type} [BitSource σ] {R : σ → Bits → Prop} (hR : BitSource.Faithful R) {c : Chunking}
  {s s' : σ} {t : Bits} {x : Int}
include hR

/-- What a faithful source gives as an unsigned field is spelt by the bits that it takes. -/
lemma BitSource.spells_of_readUnsigned (h : R s t)
    (hrun : (readUnsigned c.length c.width.bits).run s = .ok (.value x) s') :
    ∃ v u rest, x = (v : Nat) ∧ t = u ++ rest ∧ R s' rest ∧ c.Spells c.width.bits u v := by
  obtain ⟨_, hrun', h'⟩ := run_readUnsigned_of_faithful hR h c
  obtain ⟨hvalue, rfl⟩ := EStateM.Result.ok.inj (hrun'.symm.trans hrun)
  obtain ⟨v, u, hx, ht, hspells⟩ := Chunking.exists_spells_of_read hvalue
  exact ⟨v, u, _, hx, ht, h', hspells⟩

/-- What it gives as a signed field fits the width. -/
lemma BitSource.fitsSigned_of_readSigned (h : R s t) {k : Nat} (hk : k < c.width.bits)
    (hrun : (readSigned c.length k c.width.bits).run s = .ok (.value x) s') :
    Zigzag.FitsSigned c.width.bits x := by
  obtain ⟨_, hrun', -⟩ := run_readSigned_of_faithful hR h hk
  obtain ⟨hvalue, -⟩ := EStateM.Result.ok.inj (hrun'.symm.trans hrun)
  obtain ⟨v, u, rfl, -, hspells⟩ := Chunking.exists_spells_of_read hvalue
  exact Zigzag.fitsSigned_unfold hk hspells.accepts.lt

end Reading

namespace BitFeed

variable {c : Chunking} {v : Nat}

/-- The code of a number is read as this number. -/
lemma run_readUnsigned_encode (hv : v < 2 ^ c.width.bits) :
    ∃ f, (BitSource.readUnsigned c.length c.width.bits).run (ofBits (c.encode v)) =
      .ok (.value v) f := by
  have hcode := Chunking.decode_encode_append hv []
  rw [List.append_nil] at hcode
  obtain ⟨f, hrun, -⟩ :=
    BitSource.run_readUnsigned_of_faithful faithful (ahead_ofBits (c.encode v)) c
  rw [Chunking.read_of_some hcode] at hrun
  exact ⟨f, hrun⟩

/-- Any other run that is read as this number is longer. -/
lemma eq_encode_or_length_lt {s : Bits} {f : BitFeed}
    (hrun : (BitSource.readUnsigned c.length c.width.bits).run (ofBits s) = .ok (.value v) f) :
    s = c.encode v ∨ (c.encode v).length < s.length := by
  obtain ⟨v', u, rest, hv, hs, -, hspells⟩ :=
    BitSource.spells_of_readUnsigned faithful (ahead_ofBits s) hrun
  obtain rfl : v = v' := by exact_mod_cast hv
  have hlen : s.length = u.length + rest.length := by rw [hs, List.length_append]
  rw [Chunking.encode]
  rcases hspells.eq_or_length_lt c.width.bits_pos with hcode | hlonger
  · rcases rest with _ | ⟨b, rest⟩
    · rw [hs, List.append_nil]
      exact .inl hcode
    · -- what stands behind the code makes the run longer
      right
      rw [← hcode, hlen, List.length_cons]
      omega
  · right
    omega

end BitFeed

namespace Reader

open ReadRequest (attempts)

/-- Behind any reads a reader has the bits ahead that it has not taken yet. -/
lemma Opened.ahead_attempts {r₀ : Reader} (h : r₀.Opened) (qs : List ReadRequest) :
    Ahead r₀ (attempts qs r₀).2 (attempts qs r₀).2.ahead :=
  Reader.ahead_attempts (ahead_start h.position_eq) qs

/-- **The fields that are read.**  Behind any reads from an opened reader, whatever its bits are, a
number that is read as an unsigned field fits the width and is made up of the chunks that are read;
it takes no fewer bits than its size and no more than the greatest one.  The bits taken are what is
written for the number exactly if they are as many as its size says, and they are not exactly if
several chunks are read and the last one is zero.  A signed field fits the width too.  So what is
written for a number is the one shortest run that is read as this number. -/
theorem accepted_fields {r₀ : Reader} (h : r₀.Opened) (qs : List ReadRequest) (c : Chunking) :
    let r := (attempts qs r₀).2
    (∀ x r', (BitSource.readUnsigned c.length c.width.bits).run r = .ok (.value x) r' →
      ∃ (v : Nat) (u : Bits), x = v ∧ r.ahead = u ++ r'.ahead ∧
        r'.position = r.position + u.length ∧ c.Accepts u v) ∧
    (∀ k < c.width.bits, ∀ x r',
      (BitSource.readSigned c.length k c.width.bits).run r = .ok (.value x) r' →
        Zigzag.FitsSigned c.width.bits x) ∧
    ∀ v : Nat, v < 2 ^ c.width.bits → ∃ code, c.Writes v code ∧
      (∃ f, (BitSource.readUnsigned c.length c.width.bits).run (BitFeed.ofBits code) =
        .ok (.value v) f) ∧
      ∀ s f, (BitSource.readUnsigned c.length c.width.bits).run (BitFeed.ofBits s) =
        .ok (.value v) f → s = code ∨ code.length < s.length := by
  intro r
  have hahead : Ahead r₀ r r.ahead := h.ahead_attempts qs
  refine ⟨?_, ?_, ?_⟩
  · intro x r' hrun
    obtain ⟨v, u, rest, hx, ht, h', hspells⟩ :=
      BitSource.spells_of_readUnsigned (faithful h.fits) hahead hrun
    have hrest : r'.ahead = rest := h'.drop_eq
    have hpos := position_of_ahead hahead
    have hpos' := position_of_ahead h'
    rw [ht, List.length_append] at hpos
    exact ⟨v, u, hx, by rw [ht, hrest], by omega, hspells.accepts⟩
  · intro k hk x r' hrun
    exact BitSource.fitsSigned_of_readSigned (faithful h.fits) hahead hk hrun
  · intro v hv
    exact ⟨c.encode v, (Chunking.writes_iff hv).mpr rfl, BitFeed.run_readUnsigned_encode hv,
      fun s f hrun => BitFeed.eq_encode_or_length_lt hrun⟩

/-- A chunk that holds one and a chunk of zeros take nine bits for a number whose code has five. -/
theorem accepted_fields_zero_chunk :
    let r : Reader := ⟨.w8, #[17, 0], 0⟩
    let c : Chunking := ⟨.w8, 4, by decide⟩
    r.Opened ∧ ∃ r' u, (BitSource.readUnsigned 4 8).run r = .ok (.value 1) r' ∧
      r.ahead = u ++ r'.ahead ∧ u.length = 9 ∧ c.Accepts u 1 ∧ ¬c.Writes 1 u := by
  intro r c
  have hopened : r.Opened := .ofWords (show ofWords .w8 [17, 0] = .ok r from rfl)
  have hrun : (BitSource.readUnsigned 4 8).run (⟨.w8, #[17, 0], 0⟩ : Reader) =
      .ok (.value 1) ⟨.w8, #[17, 0], 9⟩ := by
    with_unfolding_all rfl
  obtain ⟨v, u, hv, ht, hpos, haccepts⟩ := (accepted_fields hopened [] c).1 _ _ hrun
  obtain rfl : 1 = v := by exact_mod_cast hv
  have hlen : u.length = 9 := by simpa [r, ReadRequest.attempts] using hpos.symm
  have hsize : unsignedSize 1 4 8 = .ok 5 := by
    with_unfolding_all rfl
  refine ⟨hopened, _, u, hrun, ht, hlen, haccepts, fun hwrites => ?_⟩
  have hnine : unsignedSize 1 4 8 = .ok u.length := haccepts.writes_iff.mp hwrites
  rw [hsize, hlen] at hnine
  exact absurd hnine (by simp)

end Reader
end BitPack
