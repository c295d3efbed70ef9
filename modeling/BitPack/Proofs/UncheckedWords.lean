/-
# Readers over unchecked words

A reader may be opened over any integers, also negative ones and such that are wider than its
words.  Each counts by its low bits in two's complement.  A raw read masks what it takes of a word,
except that all 64 bits of an integer are handed out as it is (`lowerBits`).  This happens for one
size, position and length of a read only: a whole word of 64 bits is asked for where it begins
(`Reader.length_lt_of_mem_segments`).  Everywhere else a raw read gives the number of the bits it
takes, and read as text it gives these bits in any case (`Reader.unchecked_reads`).
-/
import BitPack.Proofs.SoftEnd

namespace BitPack.Reader

open ReadRequest (attempts)

variable {base r : Reader} {t : Bits} {n : Nat}

/-! ## Whole words -/

/-- The next `m` bits are a whole word of 64 bits. -/
def AtWholeWord (r : Reader) (m : Nat) : Prop := r.wordSize = .w64 ∧ 64 ∣ r.position ∧ m = 64

instance (r : Reader) (m : Nat) : Decidable (r.AtWholeWord m) :=
  inferInstanceAs (Decidable (_ ∧ _))

/-- A segment has all 64 bits only if it is a whole word of this size. -/
lemma length_lt_of_mem_segments (hn : n ≤ 64) (h : ¬r.AtWholeWord n) {s : Segment}
    (hs : s ∈ segments r.wordSize r.position n) : s.length < 64 := by
  rcases Nat.lt_or_eq_of_le hn with hlt | rfl
  · exact Nat.lt_of_le_of_lt (length_le_of_mem_segments hs) hlt
  · have hw := r.wordSize.bits_pos
    have hmod := Nat.mod_lt r.position hw
    -- the first segment is not empty and, as the position is inside a word, not the whole run
    have hfirst : r.wordSize.bits - r.position % r.wordSize.bits < 64 := by
      by_contra hge
      have hbits : r.wordSize.bits = 64 := Nat.le_antisymm r.wordSize.bits_le (by omega)
      refine h ⟨Width.bits_injective hbits, Nat.dvd_of_mod_eq_zero ?_, rfl⟩
      rw [hbits] at hge
      omega
    rw [segments_of_pos _ _ (by decide)] at hs
    rcases List.mem_cons.mp hs with rfl | hs
    · dsimp only
      omega
    · have hle := length_le_of_mem_segments hs
      omega

lemma segments_of_atWholeWord (h : r.AtWholeWord n) :
    segments r.wordSize r.position n = [⟨r.position / 64, 0, 64⟩] := by
  obtain ⟨hw, hdvd, rfl⟩ := h
  have hbits : r.wordSize.bits = 64 := by rw [hw]; rfl
  rw [segments_of_pos _ _ (by decide), hbits, Nat.mod_eq_zero_of_dvd hdvd, Nat.sub_zero,
    Nat.min_self, Nat.sub_self, segments_zero]

/-! ## Raw reads -/

/-- A raw read takes the bits in front, unless they are a whole word of 64 bits. -/
lemma take_of_not_atWholeWord (h : Ahead base r t) (hn : n ≤ 64)
    (hword : ¬r.AtWholeWord (min n r.bitsRemaining)) : (r.take n).1 = Taken.ofBits (t.take n) := by
  refine take_of_lowerBits h ?_
  intro s hs
  have hlen := length_lt_of_mem_segments (Nat.le_trans (Nat.min_le_left _ _) hn) hword hs
  rw [lowerBits, if_neg (Nat.ne_of_lt hlen)]

/-- A whole word of 64 bits is taken as it is. -/
lemma take_of_atWholeWord (hword : r.AtWholeWord (min n r.bitsRemaining)) :
    (r.take n).1 = ⟨r.word (r.position / 64), 64⟩ := by
  have hm : min n r.bitsRemaining = 64 := hword.2.2
  rw [take, segments_of_atWholeWord hword, hm]
  simp [gather, lowerBits]

/-- Its low bits are the bits in front. -/
lemma low_word_of_atWholeWord (h : Ahead base r t)
    (hword : r.AtWholeWord (min n r.bitsRemaining)) :
    Bits.low 64 (r.word (r.position / 64)) = Bits.toNat (t.take n) := by
  obtain ⟨hw, hdvd, hm⟩ := hword
  have hbits : r.wordSize.bits = 64 := by rw [hw]; rfl
  have hoffset := Nat.mod_eq_zero_of_dvd hdvd
  have hpos : r.position < r.capacity := by
    rw [bitsRemaining] at hm
    omega
  have hlow := low_word r (m := 64) hpos (by rw [hbits, hoffset])
  rw [hbits, hoffset, h.drop_eq] at hlow
  rw [← length_of_ahead h] at hm
  rw [List.take_eq_take_min, hm, ← hlow, Int.shiftRight_zero]

/-- Whatever the words are, the low bits of what a raw read gives are the bits in front. -/
lemma ofInt_value_take (h : Ahead base r t) (hn : n ≤ 64) :
    Bits.ofInt (min n r.bitsRemaining) (r.take n).1.value = t.take n := by
  have hlen : (t.take n).length = min n r.bitsRemaining := by
    rw [List.length_take, length_of_ahead h]
  by_cases hword : r.AtWholeWord (min n r.bitsRemaining)
  · have hm : min n r.bitsRemaining = 64 := hword.2.2
    rw [take_of_atWholeWord hword, hm]
    refine Bits.toNat_inj (by rw [Bits.length_ofInt, hlen, hm]) ?_
    rw [Bits.toNat_ofInt]
    exact low_word_of_atWholeWord h hword
  · rw [take_of_not_atWholeWord h hn hword, ← hlen]
    exact Bits.ofInt_toNat (t.take n)

/-- The word at an index in front of the end. -/
lemma getElem?_words {i : Nat} (hi : i < r.words.size) : r.words.toList[i]? = some (r.word i) := by
  rw [word, Array.getD_eq_getD_getElem?, Array.getElem?_toList, Array.getElem?_eq_getElem hi,
    Option.getD_some]

/-- A raw read gives the number of the bits in front, or the word that stands there. -/
lemma exists_run_readBits (h : Ahead base r t) (hn : n ≤ 64) :
    ∃ value,
      (BitSource.readBits n).run r = .ok ⟨value, (min n r.bitsRemaining : Nat)⟩ (r.take n).2 ∧
      if r.AtWholeWord (min n r.bitsRemaining) then
        r.words.toList[r.position / 64]? = some value ∧ value % 2 ^ 64 = Bits.toNat (t.take n)
      else value = Bits.toNat (t.take n) := by
  refine ⟨(r.take n).1.value, run_readBits hn r, ?_⟩
  split
  · next hword =>
    have hindex : r.position / 64 < r.words.size := by
      obtain ⟨hw, -, hm⟩ := hword
      have hbits : r.wordSize.bits = 64 := by rw [hw]; rfl
      rw [bitsRemaining, capacity, hbits] at hm
      omega
    rw [take_of_atWholeWord hword, getElem?_words hindex, ← low_word_of_atWholeWord h hword,
      Bits.coe_low]
    exact ⟨rfl, rfl⟩
  · next hword =>
    rw [take_of_not_atWholeWord h hn hword]
    rfl

/-- Read as text, the bits in front are shown. -/
lemma run_readText (h : Ahead base r t) (hn : n ≤ 64) :
    (BitSource.readText n).run r = .ok (BitText.ofBits (t.take n)) (r.take n).2 := by
  have hcount : checkCount 64 ((min n r.bitsRemaining : Nat) : Int) = .ok (min n r.bitsRemaining) :=
    checkCount_natCast (by omega)
  rw [BitSource.readText, EStateM.run_bind, run_readBits hn]
  dsimp only
  rw [count_take, BitText.ofNumber, BitText.ofBitset, Option.getD_some, hcount,
    ← ofInt_value_take h hn]
  rfl

/-- **Reads over unchecked words.**  Let a reader be opened over any integers.  Behind any reads its
words are the same, and its position is not beyond their end.  Let `m` of the next `n` bits be
there.  A raw read of at most 64 bits takes these `m` bits and gives their number, except that 64
bits where a word of this size begins are given as the integer that stands there, which is
congruent to their number.  Read as text they are the part of the text of the words at the
position. -/
theorem unchecked_reads (w : Width) (words : List Int) (qs : List ReadRequest) :
    let r := (attempts qs (ofRaw w words)).2
    r.wordSize = w ∧ r.words.toList = words ∧ r.position ≤ words.length * w.bits ∧
      ∀ n : Nat, n ≤ 64 →
        let m := min n (words.length * w.bits - r.position)
        let bits := ((Bits.unpack w.bits words).drop r.position).take m
        let r' : Reader := { r with position := r.position + m }
        (∃ value, (BitSource.readBits n).run r = .ok ⟨value, m⟩ r' ∧
          if w = .w64 ∧ 64 ∣ r.position ∧ m = 64 then
            words[r.position / 64]? = some value ∧ value % 2 ^ 64 = Bits.toNat bits
          else value = Bits.toNat bits) ∧
        ∃ stream text, BitText.ofBuffer words w.bits = .ok stream ∧
          (BitSource.readText n).run r = .ok text r' ∧
          text.toList = (stream.toList.drop r.position).take m := by
  intro r
  have h : Ahead (ofRaw w words) r r.ahead := ahead_attempts (ahead_start rfl) qs
  have hwords : r.words.toList = words := by rw [h.words_eq, ofRaw, List.toList_toArray]
  have hcapacity : r.capacity = words.length * w.bits := by
    rw [capacity, h.wordSize_eq, ← hwords, Array.length_toList]
    rfl
  have hbits : r.bits = Bits.unpack w.bits words := by
    rw [bits, h.wordSize_eq, hwords]
    rfl
  refine ⟨h.wordSize_eq, hwords, hcapacity ▸ h.position_le, ?_⟩
  intro n hn m bits r'
  have hm : m = min n r.bitsRemaining := by rw [bitsRemaining, hcapacity]
  have hfront : r.ahead.take n = bits := by
    rw [List.take_eq_take_min, length_ahead, ← hm, ahead, hbits]
  have hr' : (r.take n).2 = r' := by rw [take, ← hm]
  refine ⟨?_, ?_⟩
  · obtain ⟨value, hrun, hvalue⟩ := exists_run_readBits h hn
    have hiff : r.AtWholeWord m ↔ w = .w64 ∧ 64 ∣ r.position ∧ m = 64 := by
      rw [AtWholeWord, h.wordSize_eq]
      rfl
    rw [← hm, hr'] at hrun
    rw [hfront, ← hm, hwords] at hvalue
    simp only [hiff] at hvalue
    exact ⟨value, hrun, hvalue⟩
  · refine ⟨_, BitText.ofBits bits, BitText.ofBuffer_natCast w.bits words, ?_, ?_⟩
    · rw [run_readText h hn, hfront, hr']
    · rw [BitText.toList_ofBits, BitText.ofWords, BitText.toList_ofBits, ← List.map_drop,
        ← List.map_take]
      rfl

/-- The second word has all its bits set, and it is given as the negative number that it is. -/
theorem unchecked_reads_negative_word :
    let r := (attempts [.bits 64] (ofRaw .w64 [5, -1])).2
    ∃ r', (BitSource.readBits 64).run r = .ok ⟨-1, 64⟩ r' ∧ r'.position = 128 ∧
      (-1 : Int) % 2 ^ 64 = Bits.toNat (((Bits.unpack 64 [5, -1]).drop 64).take 64) := by
  intro r
  obtain ⟨-, -, -, hreads⟩ := unchecked_reads .w64 [5, -1] [.bits 64]
  obtain ⟨⟨value, hrun, hvalue⟩, -⟩ := hreads 64 (by decide)
  rw [if_pos ⟨rfl, Nat.dvd_refl 64, rfl⟩] at hvalue
  obtain ⟨hword, hcongruent⟩ := hvalue
  obtain rfl : -1 = value := Option.some.inj hword
  exact ⟨_, hrun, rfl, hcongruent⟩

end BitPack.Reader
