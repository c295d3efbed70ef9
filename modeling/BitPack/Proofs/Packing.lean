/-
# Packing runs of bits into words and bytes

A run of bits is packed into words by cutting it into pieces of one word each; the last
piece stands for a word whose high bits are zero.  `Bits.toWords` is this packing and
`Bits.pad` the run that the words stand for.  The main facts are

* `Bits.unpack_toWords`: unpacking gives the run back, completed with zeros;
* `Bits.toWords_append`: a run of whole words can be packed separately;
* `Bytes.toWords_eq_toWords`: bytes are cast to words by packing their bits;
* `Bytes.take_ofWords_toWords`: cutting the bytes of the words behind the last bit leaves
  the bytes of the run, whatever the size of the words.
-/
import BitPack.BitText
import BitPack.Bytes
import BitPack.Proofs.Runs

namespace BitPack

/-! ## Counting words -/

/-- How many words of `n` bits are needed for a number of bits. -/
def wordsNeeded (n len : Nat) : Nat := (len + (n - 1)) / n

section wordsNeeded

variable {n : Nat} (hn : 0 < n)
include hn

lemma le_mul_wordsNeeded (len : Nat) : len ≤ n * wordsNeeded n len := by
  have h := Nat.div_add_mod (len + (n - 1)) n
  have := Nat.mod_lt (len + (n - 1)) hn
  rw [← wordsNeeded] at h
  omega

lemma mul_wordsNeeded_lt (len : Nat) : n * wordsNeeded n len < len + n := by
  have := Nat.mul_div_le (len + (n - 1)) n
  rw [← wordsNeeded] at this
  omega

/-- The number of words is the only one for which the last word is begun and not
exceeded. -/
lemma wordsNeeded_eq {len k : Nat} (h1 : len ≤ n * k) (h2 : n * k < len + n) :
    wordsNeeded n len = k := by
  rw [wordsNeeded]
  apply Nat.div_eq_of_lt_le
  · rw [Nat.mul_comm]
    omega
  · rw [Nat.mul_comm, Nat.mul_succ]
    omega

lemma wordsNeeded_mul (k : Nat) : wordsNeeded n (n * k) = k :=
  wordsNeeded_eq hn (Nat.le_refl _) (by omega)

lemma wordsNeeded_add (len : Nat) : wordsNeeded n (n + len) = wordsNeeded n len + 1 := by
  rw [wordsNeeded, wordsNeeded, Nat.add_assoc, Nat.add_div_left _ hn]

/-- Rounding up in two steps, first to a divisor of the size. -/
lemma wordsNeeded_mul_wordsNeeded {m : Nat} (hm : 0 < m) (hmn : m ∣ n) (len : Nat) :
    wordsNeeded n (m * wordsNeeded m len) = wordsNeeded n len := by
  obtain ⟨d, rfl⟩ := hmn
  have h1 := le_mul_wordsNeeded hn len
  have h2 := mul_wordsNeeded_lt hn len
  have h3 := le_mul_wordsNeeded hm len
  have h4 := mul_wordsNeeded_lt hm len
  rw [Nat.mul_assoc] at h1 h2
  refine wordsNeeded_eq hn ?_ ?_
  · -- the inner number of words is at most that of the words of the outer ones
    rw [Nat.mul_assoc]
    refine Nat.mul_le_mul_left m (Nat.le_of_not_lt ?_)
    intro hlt
    have := Nat.mul_le_mul_left m hlt
    rw [Nat.mul_succ] at this
    omega
  · rw [Nat.mul_assoc]
    omega

end wordsNeeded

lemma Width.eight_dvd_bits (w : Width) : 8 ∣ w.bits := ⟨w.bytes, rfl⟩

/-! ## Pieces -/

namespace BitText

variable {α β : Type} {n : Nat}

@[simp] lemma pieces_nil (n : Nat) : pieces n ([] : List α) = [] := by
  rw [pieces]
  simp

lemma pieces_of_ne_nil (hn : 0 < n) {s : List α} (hs : s ≠ []) :
    pieces n s = s.take n :: pieces n (s.drop n) := by
  rw [pieces, if_neg]
  simp only [List.length_eq_zero_iff, not_or]
  exact ⟨Nat.ne_of_gt hn, hs⟩

lemma pieces_of_length_le {s : List α} (hs : s ≠ []) (h : s.length ≤ n) : pieces n s = [s] := by
  have hn : 0 < n := Nat.lt_of_lt_of_le (List.length_pos_iff.mpr hs) h
  rw [pieces_of_ne_nil hn hs, List.take_of_length_le h, List.drop_of_length_le h, pieces_nil]

lemma pieces_map (f : α → β) (s : List α) : pieces n (s.map f) = (pieces n s).map (List.map f) := by
  fun_induction pieces n s with
  | case1 s h =>
    rw [pieces, if_pos (by simpa using h), List.map_nil]
  | case2 s h ih =>
    rw [pieces, if_neg (by simpa using h), List.map_cons, ← ih, List.map_take, List.map_drop]

/-- Whole pieces at the front are cut off first. -/
lemma pieces_append (hn : 0 < n) {k : Nat} {s : List α} (hs : s.length = n * k) (t : List α) :
    pieces n (s ++ t) = pieces n s ++ pieces n t := by
  induction k generalizing s with
  | zero =>
    obtain rfl : s = [] := List.eq_nil_of_length_eq_zero hs
    simp
  | succ k ih =>
    rw [Nat.mul_succ] at hs
    have hne : s ≠ [] := List.ne_nil_of_length_pos (by omega)
    have hdrop : (s.drop n).length = n * k := by
      rw [List.length_drop]
      omega
    rw [pieces_of_ne_nil hn hne, pieces_of_ne_nil hn (List.append_ne_nil_of_left_ne_nil hne t),
      List.take_append_of_le_length (by omega), List.drop_append_of_le_length (by omega),
      ih hdrop, List.cons_append]

lemma length_pieces (hn : 0 < n) (s : List α) : (pieces n s).length = wordsNeeded n s.length := by
  fun_induction pieces n s with
  | case1 s h =>
    have h0 : s.length = n * 0 := by omega
    rw [h0, wordsNeeded_mul hn, List.length_nil]
  | case2 s h ih =>
    rw [List.length_cons, ih, List.length_drop]
    by_cases hle : n ≤ s.length
    · -- a full piece
      obtain ⟨m, hm⟩ := Nat.exists_eq_add_of_le hle
      rw [hm, Nat.add_sub_cancel_left, wordsNeeded_add hn]
    · -- the last piece
      have h0 : s.length - n = n * 0 := by omega
      rw [h0, wordsNeeded_mul hn, wordsNeeded_eq hn (k := 1) (by omega) (by omega)]

lemma length_le_of_mem_pieces {s p : List α} (h : p ∈ pieces n s) : p.length ≤ n := by
  fun_induction pieces n s with
  | case1 => simp at h
  | case2 s _ ih =>
    rcases List.mem_cons.mp h with rfl | h
    · exact List.length_take_le n s
    · exact ih h

end BitText

/-! ## Words -/

namespace Bits

/-- A run of bits packed into words of `n` bits, completed with zeros. -/
def toWords (n : Nat) (s : Bits) : List Nat := (BitText.pieces n s).map toNat

/-- The bits of words of `n` bits, which count by their low bits. -/
def unpack (n : Nat) (words : List Int) : Bits := words.flatMap (ofInt n)

/-- A run of bits completed with zeros to a multiple of `n`. -/
def pad (n : Nat) (s : Bits) : Bits :=
  s ++ List.replicate (n * wordsNeeded n s.length - s.length) false

variable {n : Nat}

@[simp] lemma toWords_nil (n : Nat) : toWords n [] = [] := by
  rw [toWords, BitText.pieces_nil, List.map_nil]

lemma length_toWords (hn : 0 < n) (s : Bits) :
    (toWords n s).length = wordsNeeded n s.length := by
  rw [toWords, List.length_map, BitText.length_pieces hn]

lemma toWords_of_ne_nil (hn : 0 < n) {s : Bits} (hs : s ≠ []) :
    toWords n s = toNat (s.take n) :: toWords n (s.drop n) := by
  rw [toWords, BitText.pieces_of_ne_nil hn hs, List.map_cons, ← toWords]

lemma toWords_of_length_le {s : Bits} (hs : s ≠ []) (h : s.length ≤ n) :
    toWords n s = [toNat s] := by
  rw [toWords, BitText.pieces_of_length_le hs h, List.map_singleton]

lemma toWords_append (hn : 0 < n) {k : Nat} {s : Bits} (hs : s.length = n * k) (t : Bits) :
    toWords n (s ++ t) = toWords n s ++ toWords n t := by
  rw [toWords, BitText.pieces_append hn hs, List.map_append, ← toWords, ← toWords]

lemma lt_of_mem_toWords {s : Bits} {x : Nat} (h : x ∈ toWords n s) : x < 2 ^ n := by
  obtain ⟨p, hp, rfl⟩ := List.mem_map.mp h
  exact Nat.lt_of_lt_of_le (toNat_lt p)
    (Nat.pow_le_pow_right (by decide) (BitText.length_le_of_mem_pieces hp))

@[simp] lemma unpack_nil (n : Nat) : unpack n [] = [] := rfl

@[simp] lemma unpack_cons (n : Nat) (x : Int) (words : List Int) :
    unpack n (x :: words) = ofInt n x ++ unpack n words := rfl

@[simp] lemma length_unpack (n : Nat) (words : List Int) :
    (unpack n words).length = words.length * n := by
  induction words with
  | nil => simp
  | cons x words ih =>
    rw [unpack_cons, List.length_append, length_ofInt, ih, List.length_cons, Nat.succ_mul,
      Nat.add_comm]

@[simp] lemma pad_nil (n : Nat) : pad n [] = [] := by
  by_cases hn : n = 0
  · subst hn
    rfl
  · simp [pad, wordsNeeded, Nat.div_eq_of_lt (Nat.sub_lt (Nat.pos_of_ne_zero hn) Nat.one_pos)]

lemma length_pad (hn : 0 < n) (s : Bits) : (pad n s).length = n * wordsNeeded n s.length := by
  have := le_mul_wordsNeeded hn s.length
  rw [pad, List.length_append, List.length_replicate]
  omega

lemma pad_of_length_eq (hn : 0 < n) {k : Nat} {s : Bits} (hs : s.length = n * k) :
    pad n s = s := by
  rw [pad, hs, wordsNeeded_mul hn, Nat.sub_self, List.replicate_zero, List.append_nil]

lemma getElem?_pad {n i : Nat} {s : Bits} (h : i < (pad n s).length) :
    (pad n s)[i]? = some (s.getD i false) := by
  rw [pad, List.length_append, List.length_replicate] at h
  rw [pad, List.getD_eq_getElem?_getD]
  by_cases hi : i < s.length
  · rw [List.getElem?_append_left hi, List.getElem?_eq_getElem hi, Option.getD_some]
  · rw [List.getElem?_append_right (by omega), List.getElem?_replicate, if_pos (by omega),
      List.getElem?_eq_none (by omega), Option.getD_none]

/-- Completing to a multiple of a divisor first makes no difference. -/
lemma pad_pad (hn : 0 < n) {m : Nat} (hm : 0 < m) (hmn : m ∣ n) (s : Bits) :
    pad n (pad m s) = pad n s := by
  have hlen := length_pad hm s
  have h1 := le_mul_wordsNeeded hm s.length
  have h2 := le_mul_wordsNeeded hn (m * wordsNeeded m s.length)
  rw [wordsNeeded_mul_wordsNeeded hn hm hmn] at h2
  rw [pad, hlen, wordsNeeded_mul_wordsNeeded hn hm hmn, pad, pad, List.append_assoc,
    List.replicate_append_replicate]
  congr 2
  omega

lemma pad_append (hn : 0 < n) {k : Nat} {s : Bits} (hs : s.length = n * k) (t : Bits) :
    pad n (s ++ t) = s ++ pad n t := by
  have hcount : wordsNeeded n (n * k + t.length) = k + wordsNeeded n t.length := by
    have h1 := le_mul_wordsNeeded hn t.length
    have h2 := mul_wordsNeeded_lt hn t.length
    refine wordsNeeded_eq hn ?_ ?_
    · rw [Nat.mul_add]
      omega
    · rw [Nat.mul_add]
      omega
  rw [pad, pad, List.append_assoc, List.length_append, hs, hcount, Nat.mul_add]
  congr 3
  omega

/-- A run that fits one word, read back from the word. -/
lemma ofInt_toNat_of_length_le {s : Bits} (h : s.length ≤ n) :
    ofInt n (toNat s) = s ++ List.replicate (n - s.length) false := by
  have hlen : (s ++ List.replicate (n - s.length) false).length = n := by
    rw [List.length_append, List.length_replicate]
    omega
  have h1 := ofInt_toNat (s ++ List.replicate (n - s.length) false)
  rwa [hlen, toNat_append_replicate_false] at h1

/-- Unpacking the words of a run gives the run completed with zeros. -/
lemma unpack_toWords (hn : 0 < n) (s : Bits) :
    unpack n ((toWords n s).map Int.ofNat) = pad n s := by
  induction hm : s.length using Nat.strongRecOn generalizing s with
  | _ m ih =>
    subst hm
    by_cases hs : s = []
    · simp [hs]
    · have hpos : 0 < s.length := List.length_pos_iff.mpr hs
      by_cases hle : s.length ≤ n
      · -- the last word holds the rest of the run and zeros
        have h1 : wordsNeeded n s.length = 1 := wordsNeeded_eq hn (by omega) (by omega)
        rw [toWords_of_length_le hs hle, List.map_singleton, unpack_cons, unpack_nil,
          List.append_nil, pad, h1, Nat.mul_one]
        exact ofInt_toNat_of_length_le hle
      · -- the first word is full, so nothing is lost by cutting behind it
        have htake : (s.take n).length = n * 1 := by
          rw [List.length_take_of_le (by omega), Nat.mul_one]
        have hfull := ofInt_toNat (s.take n)
        rw [htake, Nat.mul_one] at hfull
        rw [toWords_of_ne_nil hn hs, List.map_cons, unpack_cons,
          ih _ (by rw [List.length_drop]; omega) _ rfl, Int.ofNat_eq_natCast, hfull,
          ← pad_append hn htake, List.take_append_drop]

/-- Packing the bits of words gives their low bits. -/
lemma toWords_unpack (hn : 0 < n) (words : List Int) :
    toWords n (unpack n words) = words.map (low n) := by
  induction words with
  | nil => simp
  | cons x words ih =>
    have hlen : (ofInt n x).length = n * 1 := by rw [length_ofInt, Nat.mul_one]
    have hne : ofInt n x ≠ [] := List.ne_nil_of_length_pos (by rw [length_ofInt]; exact hn)
    rw [unpack_cons, toWords_append hn hlen, ih, List.map_cons,
      toWords_of_length_le hne (Nat.le_of_eq (length_ofInt n x)), toNat_ofInt,
      List.singleton_append]

@[simp] lemma toWords_pad (hn : 0 < n) (s : Bits) : toWords n (pad n s) = toWords n s := by
  rw [← unpack_toWords hn, toWords_unpack hn, List.map_map]
  have hlow : ∀ x ∈ toWords n s, (low n ∘ Int.ofNat) x = id x := by
    intro x hx
    exact low_of_lt (lt_of_mem_toWords hx)
  rw [List.map_congr_left hlow, List.map_id]

end Bits

/-! ## Bytes -/

namespace Bytes

@[simp] lemma toBits_nil : toBits [] = [] := rfl

@[simp] lemma toBits_cons (b : UInt8) (s : Bytes) :
    toBits (b :: s) = Bits.ofInt 8 b.toNat ++ toBits s := rfl

@[simp] lemma toBits_append (s t : Bytes) : toBits (s ++ t) = toBits s ++ toBits t :=
  List.flatMap_append

@[simp] lemma length_toBits (s : Bytes) : (toBits s).length = 8 * s.length := by
  induction s with
  | nil => rfl
  | cons b s ih =>
    rw [toBits_cons, List.length_append, Bits.length_ofInt, ih, List.length_cons]
    omega

/-- Bit `i` of a list of bytes is bit `i % 8` of byte `i / 8`. -/
lemma getElem?_toBits (s : Bytes) (i : Nat) :
    (toBits s)[i]? = s[i / 8]?.map fun b => b.toNat.testBit (i % 8) := by
  induction s generalizing i with
  | nil => simp
  | cons b s ih =>
    rw [toBits_cons]
    by_cases hi : i < 8
    · rw [List.getElem?_append_left (by rwa [Bits.length_ofInt]), Bits.getElem?_ofInt_natCast,
        if_pos hi, Nat.div_eq_of_lt hi, Nat.mod_eq_of_lt hi]
      rfl
    · obtain ⟨k, rfl⟩ := Nat.exists_eq_add_of_le (Nat.le_of_not_lt hi)
      rw [List.getElem?_append_right (by rw [Bits.length_ofInt]; omega), Bits.length_ofInt,
        Nat.add_sub_cancel_left, ih, Nat.add_div_left k (by decide), List.getElem?_cons_succ,
        Nat.add_mod_left]

lemma take_toBits (s : Bytes) (k : Nat) : (toBits s).take (8 * k) = toBits (s.take k) := by
  induction s generalizing k with
  | nil => simp
  | cons b s ih =>
    cases k with
    | zero => simp
    | succ k =>
      rw [toBits_cons, List.take_append, Bits.length_ofInt, List.take_succ_cons, toBits_cons,
        Nat.mul_succ, Nat.add_sub_cancel, ih, List.take_of_length_le]
      rw [Bits.length_ofInt]
      omega

lemma drop_toBits (s : Bytes) (k : Nat) : (toBits s).drop (8 * k) = toBits (s.drop k) := by
  induction s generalizing k with
  | nil => simp
  | cons b s ih =>
    cases k with
    | zero => simp
    | succ k =>
      rw [toBits_cons, List.drop_append, Bits.length_ofInt, List.drop_succ_cons,
        Nat.mul_succ, Nat.add_sub_cancel, ih, List.drop_of_length_le, List.nil_append]
      rw [Bits.length_ofInt]
      omega

/-- The number of a list of bytes is that of its bits. -/
lemma toNat_toBits (s : Bytes) : Bits.toNat (toBits s) = toNat s := by
  induction s with
  | nil => rfl
  | cons b s ih =>
    rw [toBits_cons, Bits.toNat_append, ih, Bits.length_ofInt, Bits.toNat_ofInt_of_lt b.toNat_lt]
    rfl

lemma toBits_injective {s t : Bytes} (h : toBits s = toBits t) : s = t := by
  have hlen : s.length = t.length := by
    have := congrArg List.length h
    rw [length_toBits, length_toBits] at this
    omega
  rw [← ofNat_toNat s, ← ofNat_toNat t, hlen, ← toNat_toBits, h, toNat_toBits]

/-- The bits of the `k` low bytes of a number are its `8 * k` low bits. -/
lemma toBits_ofNat (k x : Nat) : toBits (ofNat k x) = Bits.ofInt (8 * k) x := by
  refine Bits.toNat_inj (by simp) ?_
  have hx : x % 256 ^ k = x % 2 ^ (8 * k) := by rw [Nat.pow_mul]
  rw [toNat_toBits, toNat_ofNat, hx, Bits.toNat_ofInt, Bits.low_natCast]

lemma toBits_ofWords (w : Width) (words : List Nat) :
    toBits (ofWords w words) = Bits.unpack w.bits (words.map Int.ofNat) := by
  induction words with
  | nil => rfl
  | cons x words ih =>
    rw [ofWords, List.flatMap_cons, toBits_append, ← ofWords, ih, toBits_ofNat, List.map_cons,
      Bits.unpack_cons]
    rfl

lemma toBits_ofBits (s : Bits) : toBits (ofBits s) = Bits.pad 8 s := by
  fun_induction ofBits s with
  | case1 => simp
  | case2 s hs ih =>
    have hbyte : (UInt8.ofNat (Bits.toNat (s.take 8))).toNat = Bits.toNat (s.take 8) :=
      UInt8.toNat_ofNat_of_lt (Bits.toNat_take_lt s 8)
    rw [toBits_cons, ih, hbyte, ← Bits.unpack_toWords (by decide),
      ← Bits.unpack_toWords (by decide), Bits.toWords_of_ne_nil (by decide) hs, List.map_cons,
      Bits.unpack_cons]
    rfl

/-- The first bytes of a run hold its first bits. -/
lemma toBits_take_ofBits {s : Bits} {k : Nat} (h : 8 * k ≤ s.length) :
    toBits ((ofBits s).take k) = s.take (8 * k) := by
  rw [← take_toBits, toBits_ofBits, Bits.pad, List.take_append_of_le_length h]

/-- Casting bytes to words packs their bits. -/
lemma toWords_eq_toWords (w : Width) (s : Bytes) :
    toWords w s = Bits.toWords w.bits (toBits s) := by
  fun_induction toWords w s with
  | case1 => simp
  | case2 s hs ih =>
    have hne : toBits s ≠ [] := by
      refine List.ne_nil_of_length_pos ?_
      rw [length_toBits]
      have := List.length_pos_iff.mpr hs
      omega
    rw [Bits.toWords_of_ne_nil w.bits_pos hne, ih, Width.bits, take_toBits, drop_toBits,
      toNat_toBits]

lemma lt_of_mem_toWords {w : Width} {s : Bytes} {x : Nat} (h : x ∈ toWords w s) :
    x < 2 ^ w.bits := by
  rw [toWords_eq_toWords] at h
  exact Bits.lt_of_mem_toWords h

/-- The bytes of the words of a run, cut behind its last bit, are the bytes of the run. -/
lemma take_ofWords_toWords (w : Width) (s : Bits) :
    (ofWords w (Bits.toWords w.bits s)).take (byteCount s.length) = ofBits s := by
  -- both sides have the bits of the run completed to whole bytes
  apply toBits_injective
  have h8 : (Bits.pad 8 s).length = 8 * byteCount s.length := Bits.length_pad (by decide) s
  rw [← take_toBits, toBits_ofWords, Bits.unpack_toWords w.bits_pos, toBits_ofBits,
    ← Bits.pad_pad w.bits_pos (by decide) w.eight_dvd_bits, Bits.pad,
    List.take_left' h8]

end Bytes
end BitPack
