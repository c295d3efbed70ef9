/-
# Fields that are made wider

The width of a field only shows in its last chunk: a number that ends with a signal bit before is
written in the same way for every greater width.  The full chunks in front of the last bit of the
width are those with a signal bit behind them, so two widths give the same code exactly if these
chunks of the narrower one hold the number (`Chunking.encode_eq_encode_iff`).  Otherwise the
narrower width drops a signal bit that the wider one writes.  Where the codes are the same, a field
of either width reads what is written with the other one (`Chunking.widening`).
-/
import BitPack.Proofs.ChunkCounts
import BitPack.Proofs.Redundancy

namespace BitPack.Chunking

variable {c c' : Chunking} {left left' v : Nat} {u : Bits}

/-! ## Codes for two widths -/

lemma min_le_sizeFrom : min left (c.length + 1) ≤ c.sizeFrom left v := by
  rw [sizeFrom]
  split
  · omega
  · dsimp only
    split <;> omega

/-- The width matters only by the bits that are left of it. -/
lemma encodeFrom_congr (h : c.length = c'.length) : c.encodeFrom left v = c'.encodeFrom left v := by
  fun_induction encodeFrom c left v with
  | case1 left v hlast => rw [encodeFrom_last (h ▸ hlast)]
  | case2 left v hmore hlt => rw [encodeFrom_stop (h ▸ hmore) (h ▸ hlt), h]
  | case3 left v hmore hlt ih =>
    have hmore' : ¬left ≤ c'.length := h ▸ hmore
    have hlt' : ¬v < 2 ^ c'.length := h ▸ hlt
    rw [encodeFrom_more hmore' hlt', ih, h]

/-- With more bits left, the code stays the same if the full chunks in front of the last bit hold
the number. -/
lemma encodeFrom_eq_encodeFrom_iff (h : left < left') :
    c.encodeFrom left v = c.encodeFrom left' v ↔ c.chunkCount v ≤ (left - 1) / c.length := by
  have hc := c.length_pos
  fun_induction encodeFrom c left v generalizing left' with
  | case1 left v hlast =>
    have hcount := c.chunkCount_pos v
    rw [Nat.div_eq_of_lt (by omega), iff_false_right (by omega)]
    -- the code for more bits is longer
    intro heq
    have hlen := congrArg List.length heq
    have hmin : min left' (c.length + 1) ≤ c.sizeFrom left' v := min_le_sizeFrom
    rw [Bits.length_ofInt, length_encodeFrom] at hlen
    omega
  | case2 left v hmore hlt =>
    have hone : c.chunkCount v ≤ 1 := by rwa [chunkCount_le_iff Nat.one_pos, Nat.mul_one]
    have hfull : 1 ≤ (left - 1) / c.length := (Nat.le_div_iff_mul_le hc).mpr (by omega)
    rw [encodeFrom_stop (by omega) hlt]
    simp only [true_iff]
    omega
  | case3 left v hmore hlt ih =>
    have hrest : left - c.length < left' - c.length := by omega
    rw [encodeFrom_more (by omega) hlt, List.append_right_inj, List.cons.injEq,
      chunkCount_of_le (by omega), pred_div_length hmore, Nat.add_le_add_iff_right]
    exact (and_iff_right rfl).trans (ih hrest)

lemma chunkCount_le_div_iff :
    c.chunkCount v ≤ (left - 1) / c.length ↔
      c.length < left ∧ v < 2 ^ (c.length * ((left - 1) / c.length)) := by
  have hc := c.length_pos
  have hcount := c.chunkCount_pos v
  by_cases h : c.length < left
  · have hfull : 1 ≤ (left - 1) / c.length := (Nat.le_div_iff_mul_le hc).mpr (by omega)
    rw [chunkCount_le_iff hfull, and_iff_right h]
  · rw [Nat.div_eq_of_lt (by omega)]
    omega

/-- Two widths give the same code exactly if the full chunks in front of the last bit of the
narrower one hold the number. -/
lemma encode_eq_encode_iff (hlength : c.length = c'.length)
    (hwidth : c.width.bits < c'.width.bits) :
    c.encode v = c'.encode v ↔
      c.length < c.width.bits ∧ v < 2 ^ (c.length * ((c.width.bits - 1) / c.length)) := by
  rw [encode, encode, ← encodeFrom_congr hlength, encodeFrom_eq_encodeFrom_iff hwidth,
    chunkCount_le_div_iff]

/-! ## Reading what is written with another width -/

/-- Bits in front are read as a number and no others are taken, from any faithful source and from an
opened reader behind any other reads. -/
structure Reads (c : Chunking) (u : Bits) (v : Nat) : Prop where
  source {σ : Type} [BitSource σ] {R : σ → Bits → Prop} (hR : BitSource.Faithful R) {s : σ}
    {rest : Bits} (h : R s (u ++ rest)) :
    ∃ s', (BitSource.readUnsigned c.length c.width.bits).run s = .ok (.value v) s' ∧ R s' rest
  reader {r₀ : Reader} (h : r₀.Opened) (qs : List ReadRequest) {rest : Bits}
    (hahead : (ReadRequest.attempts qs r₀).2.ahead = u ++ rest) :
    ∃ r', (BitSource.readUnsigned c.length c.width.bits).run (ReadRequest.attempts qs r₀).2 =
        .ok (.value v) r' ∧
      r'.ahead = rest ∧ r'.position = (ReadRequest.attempts qs r₀).2.position + u.length

/-- The code of a number is read as this number. -/
lemma reads_encode (hv : v < 2 ^ c.width.bits) : c.Reads (c.encode v) v := by
  have hsource : ∀ {σ : Type} [BitSource σ] {R : σ → Bits → Prop}, BitSource.Faithful R →
      ∀ {s : σ} {rest : Bits}, R s (c.encode v ++ rest) →
      ∃ s', (BitSource.readUnsigned c.length c.width.bits).run s = .ok (.value v) s' ∧
        R s' rest := by
    intro σ _ R hR s rest h
    have hread := BitSource.run_readUnsigned_of_faithful hR h c
    rwa [read_of_some (decode_encode_append hv rest)] at hread
  refine ⟨hsource, ?_⟩
  intro r₀ h qs rest hahead
  have hbefore := h.ahead_attempts qs
  obtain ⟨r', hrun, hbehind⟩ := hsource (Reader.faithful h.fits) (hahead ▸ hbefore)
  have hpos := Reader.position_of_ahead hbefore
  have hpos' := Reader.position_of_ahead hbehind
  rw [hahead, List.length_append] at hpos
  exact ⟨r', hrun, hbehind.drop_eq, by omega⟩

/-- **Fields that are made wider.**  Take two widths and chunks of the same length, and let `f` be
the number of full chunks in front of the last bit of the narrower width.  Any number of this width
is written with the same bits for both widths exactly if a chunk is shorter than the narrower width
and `f` chunks hold the number.  In that case a field of either width reads the bits that are
written with the other one as this number, and takes no more than these. -/
theorem widening (hlength : c.length = c'.length) (hwidth : c.width.bits < c'.width.bits)
    (hv : v < 2 ^ c.width.bits) :
    let f := (c.width.bits - 1) / c.length
    ∃ u u', c.Writes v u ∧ c'.Writes v u' ∧
      (u = u' ↔ c.length < c.width.bits ∧ v < 2 ^ (c.length * f)) ∧
      (c.length < c.width.bits → v < 2 ^ (c.length * f) → c'.Reads u v ∧ c.Reads u' v) := by
  intro f
  have hv' : v < 2 ^ c'.width.bits :=
    Nat.lt_trans hv (Nat.pow_lt_pow_right (by decide) hwidth)
  have hiff := encode_eq_encode_iff (v := v) hlength hwidth
  refine ⟨c.encode v, c'.encode v, (writes_iff hv).mpr rfl, (writes_iff hv').mpr rfl, hiff, ?_⟩
  intro hchunk hfull
  have hcode := hiff.mpr ⟨hchunk, hfull⟩
  exact ⟨hcode ▸ reads_encode hv', hcode ▸ reads_encode hv⟩

/-- Of 8 bits, two full chunks of three stand in front of the last bit: they hold 63, but not 64. -/
theorem widening_three_bits :
    let c : Chunking := ⟨.w8, 3, by decide⟩
    let c' : Chunking := ⟨.w64, 3, by decide⟩
    c.length = c'.length ∧ c.width.bits < c'.width.bits ∧ 64 < 2 ^ c.width.bits ∧
      (∃ u, c.Writes 63 u ∧ c'.Writes 63 u ∧ c'.Reads u 63 ∧ c.Reads u 63) ∧
      ∃ u u', c.Writes 64 u ∧ c'.Writes 64 u' ∧ u ≠ u' := by
  intro c c'
  have hlength : c.length = c'.length := rfl
  have hwidth : c.width.bits < c'.width.bits := by decide
  obtain ⟨u, u', hu, hu', hiff, hread⟩ := widening (v := 63) hlength hwidth (by decide)
  obtain rfl : u = u' := hiff.mpr ⟨by decide, by decide⟩
  obtain ⟨hwide, hnarrow⟩ := hread (by decide) (by decide)
  obtain ⟨t, t', ht, ht', hiff', -⟩ := widening (v := 64) hlength hwidth (by decide)
  refine ⟨hlength, hwidth, by decide, ⟨u, hu, hu', hwide, hnarrow⟩, t, t', ht, ht', ?_⟩
  intro heq
  exact absurd (hiff'.mp heq).2 (by decide)

end BitPack.Chunking
