/-
# Codes tell where they end

No code is the beginning of another one (`Chunking.eq_of_prefix_encode`), so a field that is cut
off anywhere is not mistaken for a shorter one: a reader says that the field is truncated and has
taken all that was left (`Reader.readUnsigned_of_decode_eq_none`).  That holds over any words.
A word of 64 bits may be handed out with more than its own bits, but a field that asks for so
many bits at once has them all in one chunk, and is not truncated when it gets them.

Codes one after the other are told apart too: sequences with the same bits are the same
(`Params.eq_of_sequenceBits_eq`).  All of this is put together in `Chunking.prefix_free`.
-/
import BitPack.Proofs.AtomicWrites
import BitPack.Proofs.ReadFailures
import BitPack.Proofs.Sequences

namespace BitPack

/-! ## Single codes -/

namespace Chunking

variable {c : Chunking} {u v : Nat} {t : Bits}

/-- No code is the beginning of another one. -/
lemma eq_of_prefix_encode (hu : u < 2 ^ c.width.bits) (hv : v < 2 ^ c.width.bits)
    (h : c.encode u <+: c.encode v) : u = v := by
  obtain ⟨rest, hrest⟩ := h
  have hread := decode_encode_append hu rest
  rw [hrest, ← List.append_nil (c.encode v), decode_encode_append hv] at hread
  simp only [Option.some.injEq, Prod.mk.injEq] at hread
  exact hread.1.symm

/-- No number is read off the bits in front of a cut. -/
lemma decode_of_prefix_encode (h : t <+: c.encode v) (hne : t ≠ c.encode v) :
    c.decode t = none := by
  have hlen : t.length < (c.encode v).length :=
    Nat.lt_of_le_of_ne h.length_le fun heq => hne (h.eq_of_length heq)
  rw [List.prefix_iff_eq_take.mp h]
  exact decode_take_encode hlen

/-- Where a whole field of 64 bits is asked for at once and cut off, there are fewer. -/
lemma min_lt_of_decode_eq_none (h : c.decode t = none) :
    min (min c.length c.width.bits) t.length < 64 := by
  have hw := c.width.bits_le
  by_contra hge
  rw [decode, decodeFrom_last (by omega), if_pos (by omega)] at h
  simp at h

end Chunking

namespace BitSource

variable {σ : Type} [BitSource σ] {R : σ → Bits → Prop}

/-- Where no number is ahead, a field is truncated and all that was ahead has been taken. -/
lemma TakesFront.readUnsigned_of_decode_eq_none {m : Nat} (hR : TakesFront R m) (hm : 1 ≤ m)
    {c : Chunking} (hc : min c.length c.width.bits ≤ m) {s : σ} {t : Bits} (h : R s t)
    (hnone : c.decode t = none) :
    ∃ x s', (readUnsigned c.length c.width.bits).run s = .ok x s' ∧ x.IsTruncated ∧ R s' [] := by
  have hread := hR.yields_readUnsigned hm hc h
  rw [Chunking.read_of_none hnone] at hread
  obtain ⟨s', hrun, h'⟩ := hread
  exact ⟨_, s', hrun, trivial, h'⟩

end BitSource

namespace Reader

variable {base r : Reader} {t : Bits} {c : Chunking}

/-- Over any words, raw reads take the bits in front as long as they do not take 64 of them. -/
lemma takesFront_of_lt (base : Reader) {m : Nat} (hm : m ≤ 64) :
    BitSource.TakesFront (fun r t => Ahead base r t ∧ min m t.length < 64) m := by
  rintro r t ⟨h, hlt⟩ n hn
  rw [← take_of_lt h (n := n) (by omega)]
  refine ⟨_, run_readBits (by omega) r, ahead_take h n, ?_⟩
  rw [List.length_drop]
  omega

lemma readUnsigned_of_decode_eq_none (h : Ahead base r t) (hnone : c.decode t = none) :
    ∃ x r', (BitSource.readUnsigned c.length c.width.bits).run r = .ok x r' ∧ x.IsTruncated ∧
      Ahead base r' [] := by
  have hpos := c.length_pos
  have hwpos := c.width.bits_pos
  have hw := c.width.bits_le
  obtain ⟨x, r', hrun, htruncated, h', -⟩ :=
    (takesFront_of_lt base (by omega)).readUnsigned_of_decode_eq_none (by omega)
      (Nat.le_refl (min c.length c.width.bits)) ⟨h, Chunking.min_lt_of_decode_eq_none hnone⟩ hnone
  exact ⟨x, r', hrun, htruncated, h'⟩

end Reader

/-! ## Sequences -/

/-- The bytes of a run and its length tell the run. -/
lemma Bytes.ofBits_injective_of_length_eq {s t : Bits} (hlen : s.length = t.length)
    (h : Bytes.ofBits s = Bytes.ofBits t) : s = t := by
  have hbits := congrArg Bytes.toBits h
  rw [Bytes.toBits_ofBits, Bytes.toBits_ofBits, Bits.pad, Bits.pad] at hbits
  exact List.append_inj_left hbits hlen

namespace Params

variable {p : Params} {us vs : List Int}

lemma valuesAhead_sequenceBits (hvs : ∀ v ∈ vs, p.InRange v) {n : Nat} (hn : vs.length ≤ n) :
    p.valuesAhead n (p.sequenceBits vs) = vs := by
  rw [← List.append_nil (p.sequenceBits vs), valuesAhead_append hvs,
    valuesAhead_of_none p.chunking.decode_nil, List.append_nil, List.take_of_length_le hn]

/-- Sequences with the same bits are the same. -/
lemma eq_of_sequenceBits_eq (hus : ∀ v ∈ us, p.InRange v) (hvs : ∀ v ∈ vs, p.InRange v)
    (h : p.sequenceBits us = p.sequenceBits vs) : us = vs := by
  have hread := valuesAhead_sequenceBits hus (Nat.le_add_right us.length vs.length)
  rw [h, valuesAhead_sequenceBits hvs (Nat.le_add_left vs.length us.length)] at hread
  exact hread.symm

end Params

/-- **The code of a field is prefix-free.**  Let `c.encode v` be the code of a number `v` of the
width, which is what writing `v` appends.  No code is the beginning of another one.  A reader over
any words that has less than a code ahead, or any other faithful source, answers that the field is
truncated and is at its end afterwards.  Sequences of values within the bounds that are encoded to
as many bits and the same bytes are the same, whatever the sizes of the words. -/
theorem Chunking.prefix_free (c : Chunking) :
    (∀ (w : Width) (qs : List WriteRequest) (v : Nat), v < 2 ^ c.width.bits →
      let wr := (WriteRequest.attempts qs (Writer.empty w)).2
      ∃ wr', (BitSink.writeUnsigned v c.length c.width.bits).run wr = .ok () wr' ∧
        wr'.contents = wr.contents ++ c.encode v) ∧
    (∀ u v : Nat, u < 2 ^ c.width.bits → v < 2 ^ c.width.bits →
      c.encode u <+: c.encode v → u = v) ∧
    (∀ v : Nat, v < 2 ^ c.width.bits →
      (∀ r : Reader, r.position ≤ r.capacity → r.ahead <+: c.encode v → r.ahead ≠ c.encode v →
        ∃ x r', (BitSource.readUnsigned c.length c.width.bits).run r = .ok x r' ∧
          x.IsTruncated ∧ r'.words = r.words ∧ r'.position = r.capacity ∧
          r'.reachedEnd = true) ∧
      ∀ {σ : Type} [BitSource σ] {R : σ → Bits → Prop}, BitSource.Faithful R →
        ∀ (s : σ) (t : Bits), R s t → t <+: c.encode v → t ≠ c.encode v →
          ∃ x s', (BitSource.readUnsigned c.length c.width.bits).run s = .ok x s' ∧
            x.IsTruncated ∧ R s' [] ∧ BitSource.reachedEnd s' = true) ∧
    ∀ (p : Params) (us vs : List Int), (∀ u ∈ us, p.InRange u) → (∀ v ∈ vs, p.InRange v) →
      ∀ w w' : Width, ∃ wr wr', (encodeToWriter p w us).result = .ok wr ∧
        (encodeToWriter p w' vs).result = .ok wr' ∧
        (wr.bitLength = wr'.bitLength → wr.bytes = wr'.bytes → us = vs) := by
  refine ⟨?_, fun u v hu hv => eq_of_prefix_encode hu hv, fun v _ => ⟨?_, ?_⟩, ?_⟩
  · intro w qs v hv wr
    have hholds := Writer.holds_attempts w qs
    have hwrite := BitSink.appends_writeUnsigned (Writer.faithful w) hholds v c.length
      c.width.bits
    rw [stream_unsigned_eq_ok_iff.mpr ⟨c, v, rfl, rfl, rfl, hv, rfl⟩] at hwrite
    obtain ⟨wr', hrun, hholds'⟩ := hwrite
    refine ⟨wr', hrun, ?_⟩
    rw [Writer.contents_of_holds hholds', Writer.contents_of_holds hholds]
  · intro r hpos hprefix hne
    obtain ⟨x, r', hrun, htruncated, h'⟩ := Reader.readUnsigned_of_decode_eq_none
      (Reader.ahead_self hpos) (decode_of_prefix_encode hprefix hne)
    exact ⟨x, r', hrun, htruncated, h'.words_eq, Reader.position_of_ahead h',
      (Reader.reachedEnd_iff h').mpr rfl⟩
  · intro σ _ R hR s t h hprefix hne
    have hw := c.width.bits_le
    obtain ⟨x, s', hrun, htruncated, h'⟩ := hR.takesFront.readUnsigned_of_decode_eq_none
      (by decide) (by omega) h (decode_of_prefix_encode hprefix hne)
    exact ⟨x, s', hrun, htruncated, h', hR.reachedEnd h'⟩
  · intro p us vs hus hvs w w'
    obtain ⟨wr, hresult, hholds⟩ := encodeToWriter_eq_ok hus w
    obtain ⟨wr', hresult', hholds'⟩ := encodeToWriter_eq_ok hvs w'
    refine ⟨wr, wr', hresult, hresult', ?_⟩
    intro hlen hbytes
    rw [hholds.bitLength_eq, hholds'.bitLength_eq] at hlen
    rw [Writer.bytes_of_holds hholds, Writer.bytes_of_holds hholds'] at hbytes
    exact Params.eq_of_sequenceBits_eq hus hvs (Bytes.ofBits_injective_of_length_eq hlen hbytes)

end BitPack
