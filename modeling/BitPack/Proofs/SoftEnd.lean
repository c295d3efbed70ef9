/-
# The soft end of a reader

A reader is at its soft end when it is at its end or when what is left of the last word is zero
as a number.  That test looks at one word only, and at a word as it was given, not at its low
bits.  Still it never hides a set bit, whatever the words are
(`Reader.forall_mem_ahead_of_onlyZeroesLeft`), and over words that fit their size it misses
zeros only in front of the last word (`Reader.onlyZeroesLeft_iff_position`).  What is ahead
gets shorter with every read, so a reader stays at its soft end and has nothing but zeros to
give (`Reader.readsZeros_attempts`).
-/
import BitPack.Proofs.CutCodes
import BitPack.Proofs.ReaderAhead
import BitPack.Proofs.Simulation

namespace BitPack

/-- Off a run without a set bit only the value of zero is read. -/
lemma Chunking.eq_of_read_eq_value {c : Chunking} {f : Nat → Int} {t : Bits}
    (ht : ∀ b ∈ t, b = false) {v : Int} (h : (c.read f t).1 = .value v) : v = f 0 := by
  rcases hd : c.decode t with _ | ⟨u, rest⟩
  · simp [read_of_none hd] at h
  · rw [read_of_some hd, FieldRead.value.injEq] at h
    rw [← h, (eq_zero_of_decode ht hd).1]

namespace Reader

open ReadRequest (attempts)

/-- The bits not taken yet. -/
def ahead (r : Reader) : Bits := r.bits.drop r.position

@[simp] lemma length_ahead (r : Reader) : r.ahead.length = r.bitsRemaining := by
  rw [ahead, List.length_drop, length_bits, bitsRemaining]

lemma ahead_self {r : Reader} (h : r.position ≤ r.capacity) : Ahead r r r.ahead :=
  ⟨rfl, rfl, h, rfl⟩

/-- Whatever the words are, reads leave them as they are and the position in front of the end. -/
lemma ahead_attempts {base r : Reader} {t : Bits} (h : Ahead base r t) (qs : List ReadRequest) :
    Ahead base (attempts qs r).2 (attempts qs r).2.ahead := by
  have hself : ∀ {s u}, Ahead base s u → Ahead base s s.ahead := by
    intro s u hs
    rwa [ahead, hs.drop_eq]
  have hread : ∀ count, BitSource.Alike (fun s s' => s = s' ∧ Ahead base s s.ahead)
      (BitSource.readBits count) (BitSource.readBits count) := by
    intro count
    refine BitSource.alike_bind (BitSource.alike_check _) ?_
    rintro n s _ ⟨rfl, hs⟩
    exact .ok _ ⟨rfl, hself (ahead_take hs n)⟩
  exact (ReadRequest.attempts_alike hread ⟨rfl, hself h⟩ qs).2.2

lemma ahead_eq_nil_iff {r : Reader} : r.ahead = [] ↔ r.capacity ≤ r.position := by
  rw [ahead, List.drop_eq_nil_iff, length_bits]

variable {r : Reader}

/-! ## Soundness -/

/-- Whatever the words are, no set bit is ahead at the soft end. -/
lemma forall_mem_ahead_of_onlyZeroesLeft (h : r.onlyZeroesLeft = true) :
    ∀ b ∈ r.ahead, b = false := by
  rw [onlyZeroesLeft, Bool.or_eq_true, Bool.and_eq_true, beq_iff_eq, beq_iff_eq] at h
  rcases h with hend | ⟨hlast, hzero⟩
  · rw [reachedEnd, decide_eq_true_iff, ← ahead_eq_nil_iff] at hend
    simp [hend]
  · -- all that is ahead is in the last word, and low bits of zero are zero
    have hlow := low_last_word hlast
    rw [hzero] at hlow
    rw [← Bits.toNat_eq_zero_iff, ahead, ← hlow]
    simp [Bits.low]

/-! ## Exactness -/

/-- Over words that fit, the soft end is reached exactly if at most a word is ahead and no bit
of it is set. -/
lemma onlyZeroesLeft_iff_position (hfit : r.Fits) :
    r.onlyZeroesLeft = true ↔ r.position = r.capacity ∨
      r.capacity ≤ r.position + r.wordSize.bits ∧ ∀ b ∈ r.ahead, b = false := by
  by_cases hend : r.capacity ≤ r.position
  · have hnil := ahead_eq_nil_iff.mpr hend
    simp only [onlyZeroesLeft, reachedEnd, hend, decide_true, Bool.true_or, true_iff]
    exact .inr ⟨by omega, by simp [hnil]⟩
  · rw [onlyZeroesLeft_iff hfit (ahead_self (by omega)), length_ahead, bitsRemaining]
    constructor
    · rintro ⟨hword, hzeros⟩
      exact .inr ⟨by omega, hzeros⟩
    · rintro (heq | ⟨hword, hzeros⟩)
      · omega
      · exact ⟨by omega, hzeros⟩

/-! ## Staying at the soft end -/

/-- A reader at its soft end that has nothing but zeros to give: a raw read takes zeros, and a
field, unsigned or signed, is zero if the reader does not end inside it. -/
structure ReadsZeros (r : Reader) : Prop where
  onlyZeroesLeft_eq : r.onlyZeroesLeft = true
  readBits {n : Nat} (hn : n ≤ 64) :
    ∃ taken r', (BitSource.readBits n).run r = .ok taken r' ∧ taken.value = 0
  readUnsigned (c : Chunking) :
    ∃ x r', (BitSource.readUnsigned c.length c.width.bits).run r = .ok x r' ∧
      ∀ v, x = .value v → v = 0
  readSigned (c : Chunking) {k : Nat} (hk : k < c.width.bits) :
    ∃ x r', (BitSource.readSigned c.length k c.width.bits).run r = .ok x r' ∧
      ∀ v, x = .value v → v = 0

lemma readsZeros_of_faithful {R : Reader → Bits → Prop} (hR : BitSource.Faithful R) {t : Bits}
    (h : R r t) (hzeros : ∀ b ∈ t, b = false) (hsoft : r.onlyZeroesLeft = true) :
    r.ReadsZeros where
  onlyZeroesLeft_eq := hsoft
  readBits {n} hn := by
    obtain ⟨r', hrun, -⟩ := BitSource.yields_readBits_natCast hR h hn
    refine ⟨_, r', hrun, ?_⟩
    have hval : Bits.toNat (t.take n) = 0 :=
      Bits.toNat_eq_zero_iff.mpr fun b hb => hzeros b (List.mem_of_mem_take hb)
    rw [Taken.ofBits, hval]
    rfl
  readUnsigned c := by
    obtain ⟨r', hrun, -⟩ := BitSource.run_readUnsigned_of_faithful hR h c
    exact ⟨_, r', hrun, fun v hv => Chunking.eq_of_read_eq_value hzeros hv⟩
  readSigned c {k} hk := by
    obtain ⟨r', hrun, -⟩ := BitSource.run_readSigned_of_faithful hR h hk
    refine ⟨_, r', hrun, fun v hv => ?_⟩
    rw [Chunking.eq_of_read_eq_value hzeros hv]
    simp [Zigzag.unfold]

/-- A reader that has reached its end stays as it is, whatever its words are. -/
lemma faithful_of_reachedEnd (h : r.capacity ≤ r.position) :
    BitSource.Faithful fun s t => s = r ∧ t = [] where
  readBits {s t} hs count := by
    obtain ⟨rfl, rfl⟩ := hs
    refine BitSource.yields_check _ ?_
    intro n _
    have hnone : min n s.bitsRemaining = 0 := by
      rw [bitsRemaining]
      omega
    refine ⟨s, ?_, rfl, by simp⟩
    show EStateM.Result.ok (s.take n).1 (s.take n).2 = _
    simp [take, hnone, gather, Taken.ofBits]
  reachedEnd {s t} hs := by
    obtain ⟨rfl, rfl⟩ := hs
    exact decide_eq_true h

/-- Over words that fit, a reader stays at its soft end and gives nothing but zeros, whatever
is read from it. -/
lemma readsZeros_attempts (hfit : r.Fits) (h : r.onlyZeroesLeft = true)
    (qs : List ReadRequest) : (attempts qs r).2.ReadsZeros := by
  by_cases hend : r.capacity ≤ r.position
  · have hfaithful := faithful_of_reachedEnd hend
    obtain ⟨-, hstay, hnil⟩ := ReadRequest.attempts_yields hfaithful ⟨rfl, rfl⟩ qs
    rw [hstay]
    exact readsZeros_of_faithful hfaithful ⟨rfl, rfl⟩ (by simp) h
  · have hahead := ahead_self (r := r) (by omega)
    have hlater := (ReadRequest.attempts_yields (faithful hfit) hahead qs).2
    obtain ⟨hword, hzeros⟩ := (onlyZeroesLeft_iff hfit hahead).mp h
    -- what is ahead behind the reads is the end of what was ahead in front of them
    have hsuffix := ReadRequest.rests_suffix r.ahead qs
    have hrest : ∀ b ∈ ReadRequest.rests r.ahead qs, b = false :=
      fun b hb => hzeros b (hsuffix.subset hb)
    refine readsZeros_of_faithful (faithful hfit) hlater hrest ?_
    exact (onlyZeroesLeft_iff hfit hlater).mpr ⟨Nat.le_trans hsuffix.length_le hword, hrest⟩

/-- **The soft end of a reader.**  Over any words, also negative or too wide ones, and at any
position, no set bit is ahead at the soft end.  Over words that fit their size, it is reached
exactly at the end, or where at most a word is ahead and no bit of it is set; and behind it,
whatever is read, valid or not, the reader stays there and gives nothing but zeros. -/
theorem soft_end (r : Reader) :
    (r.onlyZeroesLeft = true → ∀ b ∈ r.ahead, b = false) ∧
      (r.Fits →
        (r.onlyZeroesLeft = true ↔ r.position = r.capacity ∨
          r.capacity ≤ r.position + r.wordSize.bits ∧ ∀ b ∈ r.ahead, b = false) ∧
        (r.onlyZeroesLeft = true → ∀ qs, (attempts qs r).2.ReadsZeros)) := by
  refine ⟨forall_mem_ahead_of_onlyZeroesLeft, fun hfit => ?_⟩
  exact ⟨onlyZeroesLeft_iff_position hfit, readsZeros_attempts hfit⟩

/-- Behind the set bits of the second of two words. -/
theorem soft_end_second_word :
    let r : Reader := ⟨.w8, #[255, 3], 10⟩
    r.Fits ∧ r.onlyZeroesLeft = true ∧ (∀ b ∈ r.ahead, b = false) ∧
      r.capacity ≤ r.position + r.wordSize.bits ∧ ∀ qs, (attempts qs r).2.ReadsZeros := by
  intro r
  have hfit : r.Fits := by simp [r, Fits, Width.bits, Width.bytes]
  have hsoft : r.onlyZeroesLeft = true := by decide
  obtain ⟨hsound, hexact⟩ := soft_end r
  obtain ⟨hiff, hstay⟩ := hexact hfit
  refine ⟨hfit, hsoft, hsound hsoft, ?_, hstay hsoft⟩
  rcases hiff.mp hsoft with hend | ⟨hword, -⟩
  · exact absurd hend (by decide)
  · exact hword

end Reader
end BitPack
