/-
# What a reader has ahead

The bits of a reader are the low bits of its words, and what it has ahead are the bits behind
its position.  A segment of a word is a piece of these bits, so gathering the segments of a
raw read gives the number of the bits that are taken (`Reader.gather_segments`), unless a
whole word of 64 bits is handed out as it is.  Over words that fit their size a reader is
therefore a faithful source (`Reader.faithful`), and it reports that only zeros are left
exactly if no set bit and at most one word is ahead (`Reader.onlyZeroesLeft_iff`).
-/
import BitPack.Reader
import BitPack.Proofs.FaithfulSource
import BitPack.Proofs.Packing

namespace BitPack

namespace Bits

/-! ## Positions in words -/

lemma drop_unpack (n : Nat) (words : List Int) (i : Nat) :
    (unpack n words).drop (i * n) = unpack n (words.drop i) := by
  induction i generalizing words with
  | zero => simp
  | succ i ih =>
    cases words with
    | nil => simp
    | cons x words =>
      rw [unpack_cons, Nat.succ_mul, Nat.add_comm, ← List.drop_drop,
        List.drop_left' (length_ofInt n x), ih, List.drop_succ_cons]

lemma shiftRight_eq_ediv (x : Int) (n : Nat) : x >>> n = x / 2 ^ n := by
  rw [Int.shiftRight_eq_div_pow]
  norm_cast

/-- The bits in a segment of the word at index `i`. -/
lemma take_drop_unpack {n : Nat} {words : List Int} {i offset m : Nat} (hi : i < words.length)
    (hm : offset + m ≤ n) :
    ((unpack n words).drop (i * n + offset)).take m = ofInt m (words[i] >>> offset) := by
  rw [← List.drop_drop, drop_unpack, List.drop_eq_getElem_cons hi, unpack_cons,
    List.drop_append_of_le_length (by rw [length_ofInt]; omega), drop_ofInt (by omega),
    List.take_append_of_le_length (by rw [length_ofInt]; omega), take_ofInt (by omega),
    shiftRight_eq_ediv]

end Bits

namespace Reader

/-- The bits of all words. -/
def bits (r : Reader) : Bits := Bits.unpack r.wordSize.bits r.words.toList

/-- Every word fits its size. -/
def Fits (r : Reader) : Prop := ∀ x ∈ r.words.toList, 0 ≤ x ∧ x < 2 ^ r.wordSize.bits

@[simp] lemma length_bits (r : Reader) : r.bits.length = r.capacity := by
  rw [bits, Bits.length_unpack, capacity, Array.length_toList]

/-! ## Gathering segments -/

lemma offset_le_of_mem_segments {w : Width} {p n : Nat} {s : Segment}
    (h : s ∈ segments w p n) : s.offset ≤ w.bits := by
  fun_induction segments w p n with
  | case1 => simp at h
  | case2 p n _ offset length ih =>
    rcases List.mem_cons.mp h with rfl | h
    · exact Nat.le_of_lt (Nat.mod_lt p w.bits_pos)
    · exact ih h

lemma length_le_of_mem_segments {w : Width} {p n : Nat} {s : Segment}
    (h : s ∈ segments w p n) : s.length ≤ n := by
  fun_induction segments w p n with
  | case1 => simp at h
  | case2 p n _ offset length ih =>
    rcases List.mem_cons.mp h with rfl | h
    · exact Nat.min_le_left _ _
    · exact Nat.le_trans (ih h) (Nat.sub_le _ _)

/-- The bits of a segment that lies in front of the end, as a number. -/
lemma low_word (r : Reader) {p m : Nat} (hp : p < r.capacity)
    (hm : p % r.wordSize.bits + m ≤ r.wordSize.bits) :
    Bits.low m (r.word (p / r.wordSize.bits) >>> (p % r.wordSize.bits)) =
      Bits.toNat ((r.bits.drop p).take m) := by
  have hw := r.wordSize.bits_pos
  have hi : p / r.wordSize.bits < r.words.toList.length := by
    rw [Array.length_toList, Nat.div_lt_iff_lt_mul hw]
    exact hp
  have hword : r.word (p / r.wordSize.bits) = r.words.toList[p / r.wordSize.bits] := by
    rw [word, Array.getD_eq_getD_getElem?, ← Array.getElem?_toList,
      List.getElem?_eq_getElem hi, Option.getD_some]
  have hpos : p / r.wordSize.bits * r.wordSize.bits + p % r.wordSize.bits = p := by
    rw [Nat.mul_comm, Nat.div_add_mod]
  have h := Bits.take_drop_unpack hi hm
  rw [hpos] at h
  rw [bits, h, Bits.toNat_ofInt, hword]

/-- Gathering the segments of a run gives the number of the run, as long as no segment is
handed out with bits above its own. -/
lemma gather_segments (r : Reader) {p n : Nat} (h : p + n ≤ r.capacity)
    (hlow : ∀ s ∈ segments r.wordSize p n,
      lowerBits 64 s.length (r.word s.word >>> s.offset) =
        Bits.low s.length (r.word s.word >>> s.offset)) :
    r.gather (segments r.wordSize p n) = Bits.toNat ((r.bits.drop p).take n) := by
  induction n using Nat.strongRecOn generalizing p with
  | _ n ih =>
    rcases Nat.eq_zero_or_pos n with rfl | hn
    · simp [gather]
    · have hmod := Nat.mod_lt p r.wordSize.bits_pos
      rw [segments_of_pos r.wordSize p hn] at hlow ⊢
      generalize hm : min n (r.wordSize.bits - p % r.wordSize.bits) = m at hlow ⊢
      obtain ⟨hfirst, hrest⟩ := List.forall_mem_cons.mp hlow
      -- the first segment gives the bits in front, the others those behind them
      have hlen : ((r.bits.drop p).take m).length = m := by
        rw [List.length_take_of_le]
        rw [List.length_drop, length_bits]
        omega
      have hsplit : (r.bits.drop p).take n =
          (r.bits.drop p).take m ++ (r.bits.drop (p + m)).take (n - m) := by
        rw [← List.drop_drop, ← List.take_add, Nat.add_sub_cancel' (by omega)]
      rw [gather, hfirst, low_word r (p := p) (m := m) (by omega) (by omega),
        ih (n - m) (by omega) (by omega) hrest, hsplit, Bits.toNat_append, hlen]
      norm_cast

/-- A number of at most 64 bits is left as it is even where it is not masked. -/
lemma lowerBits_of_fits {x : Int} (h0 : 0 ≤ x) (hx : x < 2 ^ 64) (m : Nat) :
    lowerBits 64 m x = Bits.low m x := by
  unfold lowerBits
  split
  · next h =>
    rw [h, Bits.coe_low, Int.emod_eq_of_lt h0 hx]
  · rfl

lemma word_bounds {r : Reader} (hfit : r.Fits) (i : Nat) :
    0 ≤ r.word i ∧ r.word i < 2 ^ r.wordSize.bits := by
  rw [word, Array.getD_eq_getD_getElem?, ← Array.getElem?_toList]
  cases hx : r.words.toList[i]? with
  | none => exact ⟨Int.le_refl 0, Int.pow_pos (by decide)⟩
  | some x => exact hfit x (List.mem_of_getElem? hx)

/-- The bits of a word from an offset on fit the room above the offset. -/
lemma shiftRight_word_bounds {r : Reader} (hfit : r.Fits) (i : Nat) {offset : Nat}
    (h : offset ≤ r.wordSize.bits) :
    0 ≤ r.word i >>> offset ∧ r.word i >>> offset < 2 ^ (r.wordSize.bits - offset) := by
  obtain ⟨h0, hlt⟩ := word_bounds hfit i
  have hp : (0 : Int) < 2 ^ offset := Int.pow_pos (by decide)
  rw [Bits.shiftRight_eq_ediv]
  refine ⟨Int.ediv_nonneg h0 (Int.le_of_lt hp), Int.ediv_lt_of_lt_mul hp ?_⟩
  rwa [← Int.pow_add, Nat.sub_add_cancel h]

/-- Over words that fit, no segment has bits above its own. -/
lemma lowerBits_word {r : Reader} (hfit : r.Fits) (i : Nat) {offset : Nat}
    (h : offset ≤ r.wordSize.bits) (m : Nat) :
    lowerBits 64 m (r.word i >>> offset) = Bits.low m (r.word i >>> offset) := by
  obtain ⟨h0, hlt⟩ := shiftRight_word_bounds hfit i h
  have hw := r.wordSize.bits_le
  have hpow : (2 : Int) ^ (r.wordSize.bits - offset) ≤ 2 ^ 64 := by
    exact_mod_cast Nat.pow_le_pow_right (by decide) (by omega)
  exact lowerBits_of_fits h0 (Int.lt_of_lt_of_le hlt hpow) m

/-! ## Readers as sources -/

/-- A reader that started as `base` has the bits `t` ahead. -/
structure Ahead (base r : Reader) (t : Bits) : Prop where
  wordSize_eq : r.wordSize = base.wordSize
  words_eq : r.words = base.words
  position_le : r.position ≤ r.capacity
  drop_eq : r.bits.drop r.position = t

variable {base r : Reader} {t : Bits}

lemma ahead_start (h : r.position = 0) : Ahead r r r.bits :=
  ⟨rfl, rfl, by rw [h]; exact Nat.zero_le _, by rw [h, List.drop_zero]⟩

lemma capacity_of_ahead (h : Ahead base r t) : r.capacity = base.capacity := by
  rw [capacity, capacity, h.wordSize_eq, h.words_eq]

/-- As many bits are ahead as remain. -/
lemma length_of_ahead (h : Ahead base r t) : t.length = r.bitsRemaining := by
  rw [← h.drop_eq, List.length_drop, length_bits, bitsRemaining]

lemma position_of_ahead (h : Ahead base r t) : r.position + t.length = base.capacity := by
  have := h.position_le
  rw [length_of_ahead h, bitsRemaining, ← capacity_of_ahead h]
  omega

lemma fits_of_ahead (hfit : base.Fits) (h : Ahead base r t) : r.Fits := by
  rw [Fits, h.wordSize_eq, h.words_eq]
  exact hfit

/-- A raw read leaves the bits behind those it takes, whatever the words are. -/
lemma ahead_take (h : Ahead base r t) (n : Nat) : Ahead base (r.take n).2 (t.drop n) := by
  have hpos := h.position_le
  refine ⟨h.wordSize_eq, h.words_eq, ?_, ?_⟩
  · show r.position + min n r.bitsRemaining ≤ r.capacity
    rw [bitsRemaining]
    omega
  · show r.bits.drop (r.position + min n r.bitsRemaining) = t.drop n
    rw [← List.drop_drop, h.drop_eq, ← length_of_ahead h, ← List.drop_eq_drop_min]

/-- A raw read takes the bits in front, if no segment is handed out with bits above its own. -/
lemma take_of_lowerBits (h : Ahead base r t) {n : Nat}
    (hlow : ∀ s ∈ segments r.wordSize r.position (min n r.bitsRemaining),
      lowerBits 64 s.length (r.word s.word >>> s.offset) =
        Bits.low s.length (r.word s.word >>> s.offset)) :
    (r.take n).1 = Taken.ofBits (t.take n) := by
  have hpos := h.position_le
  rw [take, gather_segments r (by rw [bitsRemaining]; omega) hlow, h.drop_eq, Taken.ofBits,
    List.length_take, ← length_of_ahead h, ← List.take_eq_take_min]

/-- Over words that fit, a raw read takes the bits in front and leaves those behind them. -/
lemma take_of_ahead (hfit : base.Fits) (h : Ahead base r t) (n : Nat) :
    (r.take n).1 = Taken.ofBits (t.take n) ∧ Ahead base (r.take n).2 (t.drop n) := by
  refine ⟨take_of_lowerBits h ?_, ahead_take h n⟩
  intro s hs
  exact lowerBits_word (fits_of_ahead hfit h) s.word (offset_le_of_mem_segments hs) s.length

/-- Over any words, a raw read that takes less than 64 bits takes those in front. -/
lemma take_of_lt (h : Ahead base r t) {n : Nat} (hn : min n t.length < 64) :
    (r.take n).1 = Taken.ofBits (t.take n) := by
  rw [length_of_ahead h] at hn
  refine take_of_lowerBits h ?_
  intro s hs
  have hlen := length_le_of_mem_segments hs
  rw [lowerBits, if_neg (by omega)]

/-- A reader over words that fit is a faithful source. -/
lemma faithful (hfit : base.Fits) : BitSource.Faithful (Ahead base) where
  readBits {r t} h count := by
    refine BitSource.yields_check _ ?_
    intro n _
    obtain ⟨h1, h2⟩ := take_of_ahead hfit h n
    exact ⟨(r.take n).2, by rw [← h1]; rfl, h2⟩
  reachedEnd {r t} h := by
    have hlen := length_of_ahead h
    have hpos := h.position_le
    show decide (r.capacity ≤ r.position) = t.isEmpty
    rw [Bool.eq_iff_iff, decide_eq_true_iff, List.isEmpty_iff_length_eq_zero, hlen, bitsRemaining]
    omega

/-! ## Soft end -/

lemma reachedEnd_iff (h : Ahead base r t) : r.reachedEnd = true ↔ t = [] := by
  have hlen := length_of_ahead h
  have hpos := h.position_le
  rw [bitsRemaining] at hlen
  rw [reachedEnd, decide_eq_true_iff, ← List.length_eq_zero_iff]
  omega

/-- In the last word as many bits remain as are left of the word. -/
lemma bitsRemaining_of_last_word (hlast : r.position / r.wordSize.bits + 1 = r.words.size) :
    r.position % r.wordSize.bits + r.bitsRemaining = r.wordSize.bits := by
  have hdiv := Nat.div_add_mod r.position r.wordSize.bits
  have hmod := Nat.mod_lt r.position r.wordSize.bits_pos
  rw [bitsRemaining, capacity, ← hlast, Nat.succ_mul, Nat.mul_comm]
  omega

/-- The low bits of what is left of the last word are the bits behind the position. -/
lemma low_last_word (hlast : r.position / r.wordSize.bits + 1 = r.words.size) :
    Bits.low r.bitsRemaining
        (r.word (r.position / r.wordSize.bits) >>> (r.position % r.wordSize.bits)) =
      Bits.toNat (r.bits.drop r.position) := by
  have hroom := bitsRemaining_of_last_word hlast
  have hmod := Nat.mod_lt r.position r.wordSize.bits_pos
  have hlt : r.position < r.capacity := by
    rw [bitsRemaining] at hroom
    omega
  have hlen : (r.bits.drop r.position).length ≤ r.bitsRemaining := by
    rw [List.length_drop, length_bits, bitsRemaining]
  rw [low_word r hlt (Nat.le_of_eq hroom), List.take_of_length_le hlen]

/-- What is left of the last word is zero exactly if no bit ahead is set. -/
lemma last_word_eq_zero_iff (hfit : base.Fits) (h : Ahead base r t)
    (hlast : r.position / r.wordSize.bits + 1 = r.words.size) :
    r.word (r.position / r.wordSize.bits) >>> (r.position % r.wordSize.bits) = 0 ↔
      ∀ b ∈ t, b = false := by
  have hroom := bitsRemaining_of_last_word hlast
  have hmod := Nat.mod_lt r.position r.wordSize.bits_pos
  obtain ⟨h0, hlt⟩ := shiftRight_word_bounds (fits_of_ahead hfit h)
    (r.position / r.wordSize.bits) (Nat.le_of_lt hmod)
  -- the room above the position is just what is ahead, so shifting leaves its number
  rw [show r.wordSize.bits - r.position % r.wordSize.bits = r.bitsRemaining by omega] at hlt
  have hword : r.word (r.position / r.wordSize.bits) >>> (r.position % r.wordSize.bits) =
      (Bits.toNat t : Nat) := by
    rw [← h.drop_eq, ← low_last_word hlast, Bits.coe_low, Int.emod_eq_of_lt h0 hlt]
  rw [hword, ← Bits.toNat_eq_zero_iff]
  norm_cast

/-- Only zeros are reported to be left exactly if at most one word is ahead and no bit of it
is set. -/
lemma onlyZeroesLeft_iff (hfit : base.Fits) (h : Ahead base r t) :
    r.onlyZeroesLeft = true ↔ t.length ≤ base.wordSize.bits ∧ ∀ b ∈ t, b = false := by
  rw [onlyZeroesLeft, Bool.or_eq_true, reachedEnd_iff h]
  by_cases ht : t = []
  · simp [ht]
  · have hw := r.wordSize.bits_pos
    have hpos : 0 < t.length := List.length_pos_iff.mpr ht
    have hlen := length_of_ahead h
    have hdiv := Nat.div_add_mod r.position r.wordSize.bits
    have hmod := Nat.mod_lt r.position hw
    rw [bitsRemaining] at hlen
    -- the position is in the last word exactly if at most a word is ahead
    have hlast : r.position / r.wordSize.bits + 1 = r.words.size ↔
        t.length ≤ r.wordSize.bits := by
      rw [capacity, Nat.mul_comm] at hlen
      constructor
      · intro heq
        rw [← heq, Nat.mul_succ] at hlen
        omega
      · intro hle
        have h1 : r.position / r.wordSize.bits < r.words.size :=
          Nat.div_lt_of_lt_mul (by omega)
        have h2 : r.words.size < r.position / r.wordSize.bits + 2 := by
          refine Nat.lt_of_not_le ?_
          intro hge
          have := Nat.mul_le_mul_left r.wordSize.bits hge
          rw [Nat.mul_add] at this
          omega
        omega
    rw [Bool.and_eq_true, beq_iff_eq, beq_iff_eq, ← h.wordSize_eq, ← hlast]
    constructor
    · rintro (hnil | ⟨h1, h2⟩)
      · exact absurd hnil ht
      · exact ⟨h1, (last_word_eq_zero_iff hfit h h1).mp h2⟩
    · rintro ⟨h1, h2⟩
      exact Or.inr ⟨h1, (last_word_eq_zero_iff hfit h h1).mpr h2⟩

/-! ## Opening -/

lemma fits_ofRaw {w : Width} {words : List Nat} (hfit : ∀ x ∈ words, x < 2 ^ w.bits) :
    (ofRaw w (words.map Int.ofNat)).Fits := by
  intro x hx
  obtain ⟨n, hn, rfl⟩ := List.mem_map.mp hx
  have := hfit n hn
  show (0 : Int) ≤ n ∧ (n : Int) < 2 ^ w.bits
  exact ⟨by omega, by exact_mod_cast this⟩

/-- The check of a word, which shifts it, is passed by the words that fit. -/
lemma not_tooWide_iff {w : Width} {x : Int} :
    ¬(x < 0 ∨ x >>> w.bits ≠ 0) ↔ 0 ≤ x ∧ x < 2 ^ w.bits := by
  have hp : (0 : Int) < 2 ^ w.bits := Int.pow_pos (by decide)
  have hlt := Int.ediv_lt_iff_lt_mul (a := x) (b := 1) hp
  have hnonneg := Int.ediv_nonneg (a := x) (b := 2 ^ w.bits)
  rw [Int.one_mul] at hlt
  rw [Bits.shiftRight_eq_ediv]
  omega

/-- Just the words that fit are accepted, as they are. -/
lemma ofWords_eq_ok_iff {w : Width} {words : List Int} {r : Reader} :
    ofWords w words = .ok r ↔ (ofRaw w words).Fits ∧ ofRaw w words = r := by
  unfold ofWords
  split
  · next x hx =>
    have hmem := List.mem_of_find?_eq_some hx
    have hbad : x < 0 ∨ x >>> w.bits ≠ 0 := by simpa using List.find?_some hx
    simp only [reduceCtorEq, false_iff, not_and]
    exact fun hfit => absurd hbad (not_tooWide_iff.mpr (hfit x hmem))
  · next hnone =>
    rw [List.find?_eq_none] at hnone
    have hfit : ∀ x ∈ words, 0 ≤ x ∧ x < 2 ^ w.bits :=
      fun x hx => not_tooWide_iff.mp (by simpa using hnone x hx)
    rw [Except.ok.injEq]
    exact ⟨fun h => ⟨hfit, h⟩, fun h => h.2⟩

lemma ofWords_eq_ok {w : Width} {words : List Nat} (hfit : ∀ x ∈ words, x < 2 ^ w.bits) :
    ofWords w (words.map Int.ofNat) = .ok (ofRaw w (words.map Int.ofNat)) :=
  ofWords_eq_ok_iff.mpr ⟨fits_ofRaw hfit, rfl⟩

lemma fits_ofBytes (w : Width) (data : Bytes) : (ofBytes w data).Fits :=
  fits_ofRaw fun _ hx => Bytes.lt_of_mem_toWords hx

/-- The bits of the words of bytes are those of the bytes, completed with zeros. -/
lemma bits_ofBytes (w : Width) (data : Bytes) :
    (ofBytes w data).bits = Bits.pad w.bits (Bytes.toBits data) := by
  rw [← Bits.unpack_toWords w.bits_pos, ← Bytes.toWords_eq_toWords]
  rfl

/-- A reader opened on bytes has their bits ahead, completed with zeros to whole words. -/
lemma ahead_ofBytes (w : Width) (data : Bytes) :
    Ahead (ofBytes w data) (ofBytes w data) (Bits.pad w.bits (Bytes.toBits data)) := by
  rw [← bits_ofBytes]
  exact ahead_start rfl

end Reader
end BitPack
