/-
# Readers and plain lists of bits

A reader over words that fit their size answers every read like a source that takes its bits
from a plain list, namely the bits of the words (`Reader.refines_of_fits`).  Both may be asked
anything, valid or not: they take the same bits, end at the same place and refuse the same
requests.  On the way the reader only moves forward, by as many bits as each raw read was asked
for or by those that were left, and each segment it looks at lies in a word that is there.
Opened on the words of a text or on bytes, the list is the run of the text or of the bytes,
completed with zeros to whole words (`Reader.opened_refines_list`).
-/
import BitPack.BitList
import BitPack.Proofs.RawReads
import BitPack.Proofs.ReaderAhead

namespace BitPack

/-! ## Lists as sources -/

namespace BitFeed

/-- The bits not taken yet. -/
def ahead (f : BitFeed) : Bits := f.bits.drop f.position

@[simp] lemma ahead_ofBits (s : Bits) : (ofBits s).ahead = s := rfl

lemma ahead_take (f : BitFeed) (n : Nat) : (f.take n).2.ahead = f.ahead.drop n := by
  show f.bits.drop (f.position + (f.ahead.take n).length) = f.ahead.drop n
  rw [← List.drop_drop, ← ahead, List.length_take, ← List.drop_eq_drop_min]

/-- A plain list is a faithful source. -/
lemma faithful : BitSource.Faithful fun (f : BitFeed) t => f.ahead = t where
  readBits {f t} h count := by
    subst h
    refine BitSource.yields_check _ ?_
    intro n _
    exact ⟨(f.take n).2, rfl, ahead_take f n⟩
  reachedEnd {f t} h := by
    subst h
    show decide (f.bits.length ≤ f.position) = (f.bits.drop f.position).isEmpty
    rw [Bool.eq_iff_iff, decide_eq_true_iff, List.isEmpty_iff, List.drop_eq_nil_iff]

end BitFeed

/-! ## Raw reads within the words -/

/-- The segments of a run that ends within the first `k` words lie in these words. -/
lemma word_lt_of_mem_segments {w : Width} {p n k : Nat} (h : p + n ≤ k * w.bits) {s : Segment}
    (hs : s ∈ segments w p n) : s.word < k := by
  fun_induction segments w p n with
  | case1 => simp at hs
  | case2 p n hn offset length ih =>
    rcases List.mem_cons.mp hs with rfl | hs
    · exact (Nat.div_lt_iff_lt_mul w.bits_pos).mpr (by omega)
    · exact ih (by omega) hs

namespace Reader

open ReadRequest (attempts)

/-- A raw read advances by as many bits as it was asked for, or by those that were left.  The
number it gives has no more bits than these, and each of the words it looks at is there. -/
structure WithinWords (e : RawRead Reader) : Prop where
  position_eq : e.after.position = e.before.position + min e.count.toNat e.before.bitsRemaining
  position_le : e.after.position ≤ e.after.capacity
  count_eq : e.taken.count = (min e.count.toNat e.before.bitsRemaining : Nat)
  value_nonneg : 0 ≤ e.taken.value
  value_lt : e.taken.value < 2 ^ min e.count.toNat e.before.bitsRemaining
  word_lt : ∀ s ∈ segments e.before.wordSize e.before.position
      (min e.count.toNat e.before.bitsRemaining), s.word < e.before.words.size

/-- A reader refines a plain list of bits.  Any requests are answered alike, and behind them the one
has reached its end just when the other has.  The reader never goes back or beyond its end.  Every
raw read of at most 64 bits, be it behind some requests or in the middle of one, is carried out
within the words. -/
structure Refines (r : Reader) (s : Bits) : Prop where
  answers_eq (qs : List ReadRequest) : (attempts qs r).1 = (attempts qs (BitFeed.ofBits s)).1
  reachedEnd_eq (qs : List ReadRequest) :
    BitSource.reachedEnd (attempts qs r).2 = BitSource.reachedEnd (attempts qs (BitFeed.ofBits s)).2
  position_mono (qs qs' : List ReadRequest) :
    (attempts qs r).2.position ≤ (attempts (qs ++ qs') r).2.position
  position_le (qs : List ReadRequest) : (attempts qs r).2.position ≤ r.capacity
  readBits (qs : List ReadRequest) {n : Nat} (hn : n ≤ 64) :
    ∃ taken r', (BitSource.readBits n).run (attempts qs r).2 = .ok taken r' ∧
      WithinWords ⟨(attempts qs r).2, n, taken, r'⟩
  withinWords (qs : List ReadRequest) :
    (attempts qs (Recorded.start r)).1 = (attempts qs r).1 ∧
      (attempts qs (Recorded.start r)).2.source = (attempts qs r).2 ∧
      ∀ e ∈ (attempts qs (Recorded.start r)).2.reads, WithinWords e

section Refines

variable {base r r' : Reader} {t : Bits}

lemma withinWords_of_ahead {n : Nat} (h : Ahead base r t) (h' : Ahead base r' (t.drop n)) :
    WithinWords ⟨r, n, Taken.ofBits (t.take n), r'⟩ := by
  have hlen := length_of_ahead h
  have hpos := position_of_ahead h
  have hpos' := position_of_ahead h'
  have hcap := capacity_of_ahead h
  have htake : (t.take n).length = min n r.bitsRemaining := by rw [List.length_take, hlen]
  rw [List.length_drop] at hpos'
  refine ⟨?_, h'.position_le, ?_, ?_, ?_, ?_⟩
  · show r'.position = r.position + min n r.bitsRemaining
    omega
  · exact congrArg Nat.cast htake
  · exact Int.natCast_nonneg _
  · show ((Bits.toNat (t.take n) : Nat) : Int) < 2 ^ min n r.bitsRemaining
    rw [← htake]
    exact_mod_cast Bits.toNat_lt (t.take n)
  · show ∀ s ∈ segments r.wordSize r.position (min n r.bitsRemaining), s.word < r.words.size
    intro s hs
    refine word_lt_of_mem_segments ?_ hs
    rw [← capacity, bitsRemaining]
    omega

/-- A reader at its start refines the list of the bits of its words. -/
lemma refines_of_fits (hfit : r.Fits) (hstart : r.position = 0) : r.Refines r.bits := by
  have hahead : Ahead r r r.bits := ahead_start hstart
  have hreader := fun qs => ReadRequest.attempts_yields (faithful hfit) hahead qs
  have hlist := fun qs =>
    ReadRequest.attempts_yields BitFeed.faithful (BitFeed.ahead_ofBits r.bits) qs
  have hrecord := fun qs => ReadRequest.attempts_yields
    (Recorded.faithful (faithful hfit) (P := WithinWords) withinWords_of_ahead)
    (s := Recorded.start r) ⟨hahead, by simp [Recorded.start]⟩ qs
  refine ⟨?_, ?_, ?_, ?_, ?_, ?_⟩
  · intro qs
    rw [(hreader qs).1, (hlist qs).1]
  · intro qs
    rw [(faithful hfit).reachedEnd (hreader qs).2, BitFeed.faithful.reachedEnd (hlist qs).2]
  · intro qs qs'
    -- what is ahead behind the further requests is the end of what was ahead in front of them
    have hsuffix := (ReadRequest.rests_suffix (ReadRequest.rests r.bits qs) qs').length_le
    have hpos := position_of_ahead (hreader qs).2
    have hpos' := position_of_ahead (hreader (qs ++ qs')).2
    rw [ReadRequest.rests_append] at hpos'
    omega
  · intro qs
    have hpos := position_of_ahead (hreader qs).2
    omega
  · intro qs n hn
    obtain ⟨r', hr', h'⟩ := BitSource.yields_readBits_natCast (faithful hfit) (hreader qs).2 hn
    exact ⟨_, r', hr', withinWords_of_ahead (hreader qs).2 h'⟩
  · intro qs
    obtain ⟨h1, h2⟩ := ReadRequest.attempts_recorded qs (Recorded.start r)
    exact ⟨h1, h2, (hrecord qs).2.2⟩

end Refines

/-- **A reader refines a plain list of bits.**  Opened on the buffer of the text of any run, or
on any bytes, a reader over words of any size refines the list of the bits of the text or of the
bytes, completed with zeros to whole words. -/
theorem opened_refines_list (w : Width) :
    (∀ s : Bits, ∃ words r, BitText.toBuffer (BitText.ofBits s) w.bits = .ok words ∧
        ofWords w (words.map Int.ofNat) = .ok r ∧
        r.capacity = w.bits * wordsNeeded w.bits s.length ∧ r.Refines (Bits.pad w.bits s)) ∧
      ∀ data : Bytes, (ofBytes w data).capacity =
          w.bits * wordsNeeded w.bits (Bytes.toBits data).length ∧
        (ofBytes w data).Refines (Bits.pad w.bits (Bytes.toBits data)) := by
  constructor
  · intro s
    have hfit : ∀ x ∈ Bits.toWords w.bits s, x < 2 ^ w.bits := fun x hx => Bits.lt_of_mem_toWords hx
    have hbits : (ofRaw w ((Bits.toWords w.bits s).map Int.ofNat)).bits = Bits.pad w.bits s :=
      Bits.unpack_toWords w.bits_pos s
    refine ⟨_, _, BitText.toBuffer_ofBits w.bits_pos s, ofWords_eq_ok hfit, ?_, ?_⟩
    · rw [← length_bits, hbits, Bits.length_pad w.bits_pos]
    · rw [← hbits]
      exact refines_of_fits (fits_ofRaw hfit) rfl
  · intro data
    constructor
    · rw [← length_bits, bits_ofBytes, Bits.length_pad w.bits_pos]
    · rw [← bits_ofBytes]
      exact refines_of_fits (fits_ofBytes w data) rfl

end Reader
end BitPack
