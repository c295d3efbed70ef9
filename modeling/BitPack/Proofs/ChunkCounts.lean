/-
# How many chunks a number takes

A number is written in as many chunks as its bits fill, at least one
(`Chunking.chunkCount_le_iff`).  Each full chunk has a signal bit, so a number of `n` chunks takes
`n * (length + 1)` bits, unless its last chunk is the one that completes the width, which has no
signal bit and may be shorter: all numbers that reach it take the greatest size
(`Chunking.sizeFrom_eq`).  From this law the size does not decrease with the number, and the field
with all its bits set, whatever value that is, attains the greatest size (`size_law`).
-/
import BitPack.Proofs.Sizes
import Mathlib.Data.Nat.Size

namespace BitPack

lemma wordsNeeded_le_iff {n len k : Nat} (hn : 0 < n) : wordsNeeded n len ≤ k ↔ len ≤ n * k := by
  constructor
  · intro h
    exact Nat.le_trans (le_mul_wordsNeeded hn len) (Nat.mul_le_mul_left n h)
  · intro h
    have hlt : n * wordsNeeded n len < n * (k + 1) := by
      have := mul_wordsNeeded_lt hn len
      rw [Nat.mul_succ]
      omega
    exact Nat.le_of_lt_succ (Nat.lt_of_mul_lt_mul_left hlt)

namespace Chunking

variable {c : Chunking} {left value u v n : Nat}

/-- The number of chunks that hold the bits of a number; zero takes one chunk too. -/
def chunkCount (c : Chunking) (value : Nat) : Nat := max 1 (wordsNeeded c.length value.size)

lemma chunkCount_pos (c : Chunking) (value : Nat) : 0 < c.chunkCount value :=
  Nat.le_max_left 1 _

lemma chunkCount_le_iff (hn : 0 < n) : c.chunkCount value ≤ n ↔ value < 2 ^ (c.length * n) := by
  rw [chunkCount, Nat.max_le, wordsNeeded_le_iff c.length_pos, Nat.size_le]
  exact and_iff_right hn

lemma chunkCount_mono (h : u ≤ v) : c.chunkCount u ≤ c.chunkCount v := by
  rw [chunkCount_le_iff (c.chunkCount_pos v)]
  exact Nat.lt_of_le_of_lt h ((chunkCount_le_iff (c.chunkCount_pos v)).mp (Nat.le_refl _))

/-- A number that one chunk does not hold takes another one than what is above its first chunk. -/
lemma chunkCount_of_le (h : 2 ^ c.length ≤ value) :
    c.chunkCount value = c.chunkCount (value / 2 ^ c.length) + 1 := by
  have hiff : ∀ n, 0 < n → (c.chunkCount value ≤ n + 1 ↔
      c.chunkCount (value / 2 ^ c.length) ≤ n) := by
    intro n hn
    rw [chunkCount_le_iff (Nat.succ_pos n), chunkCount_le_iff hn,
      Nat.div_lt_iff_lt_mul (Nat.two_pow_pos _), ← Nat.pow_add, Nat.mul_succ]
  have htwo : ¬c.chunkCount value ≤ 1 := by
    rw [chunkCount_le_iff Nat.one_pos, Nat.mul_one]
    omega
  have hrest := c.chunkCount_pos (value / 2 ^ c.length)
  have hle := (hiff _ hrest).mpr (Nat.le_refl _)
  have hge := (hiff (c.chunkCount value - 1) (by omega)).mp (by omega)
  omega

/-- The size of a number by its chunks: all of them are full, or the last one completes the
width. -/
lemma sizeFrom_eq (hleft : 0 < left) (hv : value < 2 ^ left) :
    c.sizeFrom left value =
      if c.chunkCount value ≤ (left - 1) / c.length then c.chunkCount value * (c.length + 1)
      else left + (left - 1) / c.length := by
  have hc := c.length_pos
  fun_induction sizeFrom c left value with
  | case1 left value hlast =>
    have hpos := c.chunkCount_pos value
    rw [Nat.div_eq_of_lt (by omega), if_neg (by omega), Nat.add_zero]
  | case2 left value hmore rest hrest =>
    have hone : c.chunkCount value = 1 := by
      have hpos := c.chunkCount_pos value
      have hle : c.chunkCount value ≤ 1 := by
        rw [chunkCount_le_iff Nat.one_pos, Nat.mul_one]
        exact shiftRight_eq_zero_iff.mp hrest
      omega
    have hfull : 1 ≤ (left - 1) / c.length := (Nat.le_div_iff_mul_le hc).mpr (by omega)
    rw [hone, if_pos hfull, Nat.one_mul]
  | case3 left value hmore rest hrest ih =>
    have hvalue : rest = value / 2 ^ c.length := Nat.shiftRight_eq_div_pow value c.length
    have hcount : c.chunkCount value = c.chunkCount rest + 1 := by
      rw [shiftRight_eq_zero_iff] at hrest
      rw [chunkCount_of_le (by omega), hvalue]
    rw [ih (by omega) (hvalue ▸ div_lt_of_lt hmore hv), hcount, pred_div_length hmore, Nat.add_mul,
      Nat.one_mul]
    simp only [Nat.add_le_add_iff_right]
    split
    · exact Nat.add_comm _ _
    · omega

lemma size_eq (hv : value < 2 ^ c.width.bits) :
    c.size value =
      if c.chunkCount value ≤ (c.width.bits - 1) / c.length then c.chunkCount value * (c.length + 1)
      else c.width.bits + (c.width.bits - 1) / c.length :=
  sizeFrom_eq c.width.bits_pos hv

lemma size_le_maxSize (c : Chunking) (value : Nat) : c.size value ≤ c.maxSize :=
  c.sizeFrom_le c.width.bits_pos value

/-- More chunks take more bits, and the greatest size is reached last. -/
lemma size_mono (h : u ≤ v) (hv : v < 2 ^ c.width.bits) : c.size u ≤ c.size v := by
  have hcount := chunkCount_mono (c := c) h
  have hmax := c.size_le_maxSize u
  rw [maxSize] at hmax
  rw [size_eq hv]
  split
  · next hfull =>
    rw [size_eq (Nat.lt_of_le_of_lt h hv), if_pos (Nat.le_trans hcount hfull)]
    exact Nat.mul_le_mul_right _ hcount
  · exact hmax

/-- The number with all bits set takes the greatest size. -/
lemma size_two_pow_sub_one (c : Chunking) : c.size (2 ^ c.width.bits - 1) = c.maxSize := by
  have hw := c.width.bits_pos
  have hpos := Nat.two_pow_pos c.width.bits
  have hlast : ¬c.chunkCount (2 ^ c.width.bits - 1) ≤ (c.width.bits - 1) / c.length := by
    intro hle
    -- the full chunks in front of the last bit do not hold that bit
    have hfull := Nat.mul_div_le (c.width.bits - 1) c.length
    have hlt := (chunkCount_le_iff (Nat.lt_of_lt_of_le (c.chunkCount_pos _) hle)).mp hle
    have hpow := Nat.pow_lt_pow_right (a := 2) (by decide)
      (show c.length * ((c.width.bits - 1) / c.length) < c.width.bits by omega)
    omega
  rw [size_eq (by omega), if_neg hlast, maxSize]

end Chunking

namespace Params

variable {p : Params} {v : Int}

/-- Every value within the bounds has a size, at most the greatest one. -/
lemma exists_fieldSize_le (h : p.InRange v) : ∃ n, p.fieldSize v = .ok n ∧ n ≤ p.maxBits :=
  ⟨_, fieldSize_eq_ok_iff.mpr ⟨h, rfl⟩, p.length_fieldBits_le v⟩

/-- The value of the field with all bits set has the greatest size. -/
lemma fieldSize_value_two_pow_sub_one (p : Params) :
    p.fieldSize (p.value (2 ^ p.width.bits - 1)) = .ok p.maxBits := by
  have hpos := Nat.two_pow_pos p.width.bits
  rw [fieldSize_eq_ok_iff, fieldBits, code_value, Chunking.length_encode]
  exact ⟨inRange_value (by omega), p.chunking.size_two_pow_sub_one⟩

end Params

/-- **The size law.**  Let `n` be the number of chunks that hold the bits of a number, at least one,
and `f` the number of full chunks in front of the last bit of the width.  A number of the width is
written in `n * (length + 1)` bits if `n ≤ f`, and in as many bits as the width has and `f` more
otherwise, which is what its size says.  So the size does not decrease with the number.  With any
parameters no value within the bounds takes more than the greatest size, and some value takes it. -/
theorem size_law :
    (∀ (c : Chunking) (v : Nat), v < 2 ^ c.width.bits →
      let n := c.chunkCount v
      let f := (c.width.bits - 1) / c.length
      let size := if n ≤ f then n * (c.length + 1) else c.width.bits + f
      unsignedSize v c.length c.width.bits = .ok size ∧
        (∀ w qs, let wr := (WriteRequest.attempts qs (Writer.empty w)).2
          ∃ wr', (BitSink.writeUnsigned v c.length c.width.bits).run wr = .ok () wr' ∧
            wr'.bitLength = wr.bitLength + size) ∧
        ∀ u : Nat, u ≤ v → ∃ m, unsignedSize u c.length c.width.bits = .ok m ∧ m ≤ size) ∧
    ∀ p : Params,
      p.maxBits = p.width.bits + (p.width.bits - 1) / p.chunkLength ∧
        (∀ v, p.InRange v → ∃ n, p.fieldSize v = .ok n ∧ n ≤ p.maxBits) ∧
        ∃ v, p.InRange v ∧ p.fieldSize v = .ok p.maxBits ∧
          ∀ w, ∃ wr, (encodeToWriter p w [v]).result = .ok wr ∧ wr.bitLength = p.maxBits := by
  refine ⟨?_, ?_⟩
  · intro c v hv n f size
    have hsize : ∀ u : Nat, u < 2 ^ c.width.bits →
        unsignedSize u c.length c.width.bits = .ok (c.size u) :=
      fun u hu => unsignedSize_eq_ok_iff.mpr ⟨u, rfl, hu, rfl⟩
    have hlaw : c.size v = size := Chunking.size_eq hv
    refine ⟨hlaw ▸ hsize v hv, ?_, ?_⟩
    · intro w qs wr
      have hholds : Writer.Holds w wr (WriteRequest.streams qs) := Writer.holds_attempts w qs
      have hrun := BitSink.run_writeUnsigned (Writer.faithful w) hholds v c.length c.width.bits
      rw [hsize v hv, hlaw] at hrun
      obtain ⟨wr', bits, hrun, hholds', hlen⟩ := hrun
      refine ⟨wr', hrun, ?_⟩
      rw [hholds'.bitLength_eq, hholds.bitLength_eq, List.length_append, hlen]
    · intro u hu
      exact ⟨_, hsize u (Nat.lt_of_le_of_lt hu hv), hlaw ▸ Chunking.size_mono hu hv⟩
  · intro p
    have hmax := p.fieldSize_value_two_pow_sub_one
    obtain ⟨hrange, hlen⟩ := Params.fieldSize_eq_ok_iff.mp hmax
    refine ⟨rfl, fun v hv => Params.exists_fieldSize_le hv, _, hrange, hmax, ?_⟩
    intro w
    obtain ⟨wr, hresult, hholds⟩ := encodeToWriter_eq_ok (List.forall_mem_singleton.mpr hrange) w
    refine ⟨wr, hresult, ?_⟩
    rw [hholds.bitLength_eq, Params.sequenceBits_cons, Params.sequenceBits_nil, List.append_nil,
      hlen]

end BitPack
