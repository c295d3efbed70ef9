/-
# The code of a field

The chunk loops write and read a field piece by piece.  This file says what the result is as
a run of bits: `Chunking.encode` is the code of a number, chunk by chunk with a signal bit
behind every chunk that does not end the width, and `Chunking.decode` takes a number off the
front of a run.  The main facts are

* `Chunking.decode_encode_append`: a code is read back from the front of any run;
* `Chunking.length_encode`: a code has the predicted size;
* `Chunking.flatMap_pieces`: the pieces of a number spell its code;
* `Chunking.encode_eq_zero_iff`: a code without a set bit is that of zero.
-/
import BitPack.Chunking
import BitPack.Proofs.Runs

namespace BitPack

/-- The bits of a piece. -/
def Piece.bits (p : Piece) : Bits := Bits.ofInt p.count p.value

namespace Chunking

variable (c : Chunking)

/-- The code of a number when `left` bits of the width are left. -/
def encodeFrom (left value : Nat) : Bits :=
  if left ≤ c.length then Bits.ofInt left value
  else if value < 2 ^ c.length then Bits.ofInt c.length value ++ [false]
  else Bits.ofInt c.length value ++
    true :: encodeFrom (left - c.length) (value / 2 ^ c.length)
termination_by left
decreasing_by
  have := c.length_pos
  omega

/-- The code of a number. -/
def encode (value : Nat) : Bits := c.encodeFrom c.width.bits value

/-- The number at the front of a run when `left` bits of the width are left, and the rest of
the run; none if the run ends inside the code. -/
def decodeFrom (left : Nat) (s : Bits) : Option (Nat × Bits) :=
  if left ≤ c.length then
    if left ≤ s.length then some (Bits.toNat (s.take left), s.drop left) else none
  else
    match s.drop c.length with
    | [] => none
    | false :: t => some (Bits.toNat (s.take c.length), t)
    | true :: t =>
      (decodeFrom (left - c.length) t).map fun x =>
        (Bits.toNat (s.take c.length) + 2 ^ c.length * x.1, x.2)
termination_by left
decreasing_by
  have := c.length_pos
  omega

/-- The number at the front of a run, and the rest of the run. -/
def decode (s : Bits) : Option (Nat × Bits) := c.decodeFrom c.width.bits s

section From

variable {c} {left value : Nat}

lemma encodeFrom_last (h : left ≤ c.length) :
    c.encodeFrom left value = Bits.ofInt left value := by
  rw [encodeFrom, if_pos h]

lemma encodeFrom_stop (h : ¬left ≤ c.length) (hv : value < 2 ^ c.length) :
    c.encodeFrom left value = Bits.ofInt c.length value ++ [false] := by
  rw [encodeFrom, if_neg h, if_pos hv]

lemma encodeFrom_more (h : ¬left ≤ c.length) (hv : ¬value < 2 ^ c.length) :
    c.encodeFrom left value = Bits.ofInt c.length value ++
      true :: c.encodeFrom (left - c.length) (value / 2 ^ c.length) := by
  rw [encodeFrom, if_neg h, if_neg hv]

lemma decodeFrom_last (h : left ≤ c.length) (s : Bits) :
    c.decodeFrom left s =
      if left ≤ s.length then some (Bits.toNat (s.take left), s.drop left) else none := by
  rw [decodeFrom, if_pos h]

lemma decode_nil (c : Chunking) : c.decode [] = none := by
  have hw := c.width.bits_pos
  by_cases hlast : c.width.bits ≤ c.length
  · rw [decode, decodeFrom_last hlast, List.length_nil, if_neg (Nat.not_le.mpr hw)]
  · rw [decode, decodeFrom, if_neg hlast, List.drop_nil]

/-- Reading a chunk that does not end the width, with the signal bit behind it. -/
lemma decodeFrom_chunk (h : ¬left ≤ c.length) {s : Bits} (hs : s.length = c.length) (b : Bool)
    (t : Bits) :
    c.decodeFrom left (s ++ b :: t) =
      if b then
        (c.decodeFrom (left - c.length) t).map fun x =>
          (Bits.toNat s + 2 ^ c.length * x.1, x.2)
      else some (Bits.toNat s, t) := by
  rw [decodeFrom, if_neg h, List.drop_left' hs, List.take_left' hs]
  cases b <;> simp

/-- The part of a number above its first chunk fits what is left of the width. -/
lemma div_lt_of_lt (h : ¬left ≤ c.length) (hv : value < 2 ^ left) :
    value / 2 ^ c.length < 2 ^ (left - c.length) := by
  rw [Nat.div_lt_iff_lt_mul (Nat.two_pow_pos _), ← Nat.pow_add]
  rwa [Nat.sub_add_cancel (by omega)]

/-- A chunk that does not end the width is one of the full chunks in front of the last bit. -/
lemma pred_div_length (h : ¬left ≤ c.length) :
    (left - 1) / c.length = (left - c.length - 1) / c.length + 1 := by
  rw [← Nat.add_div_right _ c.length_pos]
  congr 1
  omega

/-- A chunk and the number above it make up the number. -/
lemma low_add_mul_div (n value : Nat) : Bits.low n value + 2 ^ n * (value / 2 ^ n) = value := by
  rw [Bits.low_natCast, Nat.mod_add_div]

/-- A code is read back from the front of any run, and what follows it is left. -/
lemma decodeFrom_encodeFrom_append (hv : value < 2 ^ left) (rest : Bits) :
    c.decodeFrom left (c.encodeFrom left value ++ rest) = some (value, rest) := by
  fun_induction encodeFrom c left value with
  | case1 left value h =>
    have hlen := Bits.length_ofInt left value
    rw [decodeFrom_last h, if_pos (by simp), List.take_left' hlen, List.drop_left' hlen,
      Bits.toNat_ofInt_of_lt hv]
  | case2 left value h hlt =>
    rw [List.append_assoc, List.singleton_append,
      decodeFrom_chunk h (Bits.length_ofInt c.length value), if_neg (by simp),
      Bits.toNat_ofInt_of_lt hlt]
  | case3 left value h hlt ih =>
    rw [List.append_assoc, List.cons_append,
      decodeFrom_chunk h (Bits.length_ofInt c.length value), if_pos rfl,
      ih (div_lt_of_lt h hv), Option.map_some, Bits.toNat_ofInt, low_add_mul_div]

/-- A chunk below a number that fits what is left makes a number that fits the width. -/
lemma add_mul_lt (h : ¬left ≤ c.length) {s : Bits} (hs : s.length = c.length) {v : Nat}
    (hv : v < 2 ^ (left - c.length)) : Bits.toNat s + 2 ^ c.length * v < 2 ^ left := by
  have hlow : Bits.toNat s < 2 ^ c.length := hs ▸ Bits.toNat_lt s
  have hpow : 2 ^ left = 2 ^ c.length * 2 ^ (left - c.length) := by
    rw [← Nat.pow_add, Nat.add_sub_cancel' (by omega)]
  calc Bits.toNat s + 2 ^ c.length * v < 2 ^ c.length + 2 ^ c.length * v := by omega
    _ = 2 ^ c.length * (v + 1) := by rw [Nat.mul_succ, Nat.add_comm]
    _ ≤ 2 ^ c.length * 2 ^ (left - c.length) := Nat.mul_le_mul_left _ hv
    _ = 2 ^ left := hpow.symm

/-- A number is read off the front of a run as the last chunk, or as a full chunk with a signal
bit that ends the field or lets it go on. -/
lemma decodeFrom_cases {s r : Bits} {v : Nat} (h : c.decodeFrom left s = some (v, r)) :
    (left ≤ c.length ∧ ∃ u, u.length = left ∧ s = u ++ r ∧ v = Bits.toNat u) ∨
      (¬left ≤ c.length ∧ ∃ u, u.length = c.length ∧
        ((s = u ++ false :: r ∧ v = Bits.toNat u) ∨
          ∃ t x, s = u ++ true :: t ∧ c.decodeFrom (left - c.length) t = some (x, r) ∧
            v = Bits.toNat u + 2 ^ c.length * x)) := by
  by_cases hleft : left ≤ c.length
  · rw [decodeFrom_last hleft] at h
    split at h
    · next hlen =>
      obtain ⟨rfl, rfl⟩ := by simpa using h
      exact .inl ⟨hleft, s.take left, List.length_take_of_le hlen,
        (List.take_append_drop left s).symm, rfl⟩
    · simp at h
  · refine .inr ⟨hleft, s.take c.length, ?_⟩
    have hsplit := (List.take_append_drop c.length s).symm
    rcases ht : s.drop c.length with _ | ⟨b, t⟩
    · -- the run ends in front of the signal bit
      rw [decodeFrom, if_neg hleft, ht] at h
      simp at h
    · have hlen : (s.take c.length).length = c.length := by
        have hdrop := congrArg List.length ht
        rw [List.length_drop, List.length_cons] at hdrop
        exact List.length_take_of_le (by omega)
      rw [ht] at hsplit
      rw [hsplit, decodeFrom_chunk hleft hlen] at h
      refine ⟨hlen, ?_⟩
      cases b with
      | false =>
        obtain ⟨rfl, rfl⟩ := by simpa using h
        exact .inl ⟨hsplit, rfl⟩
      | true =>
        obtain ⟨x, hx, hxv⟩ := Option.map_eq_some_iff.mp h
        obtain ⟨rfl, rfl⟩ := Prod.mk.injEq .. ▸ hxv
        exact .inr ⟨t, x.1, hsplit, hx, rfl⟩

/-- Whatever is read fits the width, even where the run is no code of the number. -/
lemma lt_of_decodeFrom {s r : Bits} {v : Nat} (h : c.decodeFrom left s = some (v, r)) :
    v < 2 ^ left := by
  have hc := c.length_pos
  induction left using Nat.strongRecOn generalizing s v with
  | _ left ih =>
    rcases decodeFrom_cases h with
      ⟨-, u, rfl, -, rfl⟩ | ⟨hmore, u, hu, ⟨-, rfl⟩ | ⟨t, x, -, hx, rfl⟩⟩
    · exact Bits.toNat_lt u
    · have hlt := Bits.toNat_lt u
      rw [hu] at hlt
      exact Nat.lt_trans hlt (Nat.pow_lt_pow_right (by decide) (Nat.lt_of_not_le hmore))
    · exact add_mul_lt hmore hu (ih _ (by omega) hx)

/-- What is left behind a field is the end of the run. -/
lemma decodeFrom_suffix {left : Nat} {s r : Bits} {v : Nat}
    (h : c.decodeFrom left s = some (v, r)) : r <:+ s := by
  have hc := c.length_pos
  induction left using Nat.strongRecOn generalizing s v with
  | _ left ih =>
    rcases decodeFrom_cases h with
      ⟨-, u, -, rfl, -⟩ | ⟨hmore, u, -, ⟨rfl, -⟩ | ⟨t, x, rfl, hx, -⟩⟩
    · exact List.suffix_append u r
    · exact (List.suffix_cons false r).trans (List.suffix_append u _)
    · exact (ih _ (by omega) hx).trans ((List.suffix_cons true t).trans (List.suffix_append u _))

/-- What is read off a run is read off any longer one, and what is added is left. -/
lemma decodeFrom_append {s r : Bits} {v : Nat} (h : c.decodeFrom left s = some (v, r))
    (z : Bits) : c.decodeFrom left (s ++ z) = some (v, r ++ z) := by
  have hc := c.length_pos
  induction left using Nat.strongRecOn generalizing s v with
  | _ left ih =>
    rcases decodeFrom_cases h with
      ⟨hlast, u, hu, rfl, rfl⟩ | ⟨hmore, u, hu, ⟨rfl, rfl⟩ | ⟨t, x, rfl, hx, rfl⟩⟩
    · rw [List.append_assoc, decodeFrom_last hlast, if_pos (by simp [hu]), List.take_left' hu,
        List.drop_left' hu]
    · rw [List.append_assoc, List.cons_append, decodeFrom_chunk hmore hu, if_neg (by simp)]
    · rw [List.append_assoc, List.cons_append, decodeFrom_chunk hmore hu, if_pos rfl,
        ih _ (by omega) hx, Option.map_some]

lemma shiftRight_eq_zero_iff : value >>> c.length = 0 ↔ value < 2 ^ c.length := by
  rw [Nat.shiftRight_eq_div_pow, Nat.div_eq_zero_iff_lt (Nat.two_pow_pos _)]

lemma length_encodeFrom : (c.encodeFrom left value).length = c.sizeFrom left value := by
  fun_induction encodeFrom c left value with
  | case1 left value h => rw [sizeFrom, if_pos h, Bits.length_ofInt]
  | case2 left value h hlt =>
    rw [sizeFrom, if_neg h, if_pos (shiftRight_eq_zero_iff.mpr hlt)]
    simp
  | case3 left value h hlt ih =>
    rw [sizeFrom, if_neg h, if_neg (by rwa [shiftRight_eq_zero_iff]),
      Nat.shiftRight_eq_div_pow, ← ih, List.length_append, List.length_cons,
      Bits.length_ofInt]
    omega

lemma sizeFrom_pos (h : 0 < left) : 0 < c.sizeFrom left value := by
  have := c.length_pos
  rw [sizeFrom]
  split
  · exact h
  · dsimp only
    split <;> omega

/-- The pieces of a number spell its code. -/
lemma flatMap_piecesFrom :
    (c.piecesFrom left value).flatMap Piece.bits = c.encodeFrom left value := by
  fun_induction encodeFrom c left value with
  | case1 left value h =>
    rw [piecesFrom, if_pos h, List.flatMap_singleton, Piece.bits]
  | case2 left value h hlt =>
    rw [piecesFrom, if_neg h, if_pos (shiftRight_eq_zero_iff.mpr hlt)]
    rfl
  | case3 left value h hlt ih =>
    rw [piecesFrom, if_neg h, if_neg (by rwa [shiftRight_eq_zero_iff]),
      Nat.shiftRight_eq_div_pow, List.flatMap_cons, List.flatMap_cons, ih]
    rfl

/-- No piece is longer than what is left of the width, signal bits apart. -/
lemma count_le_of_mem_piecesFrom {p : Piece} (h : p ∈ c.piecesFrom left value) :
    p.count ≤ max left 1 := by
  fun_induction piecesFrom c left value with
  | case1 left value _ =>
    rw [List.mem_singleton.mp h]
    exact Nat.le_max_left left 1
  | case2 left value hc rest hr =>
    simp only [List.mem_cons, List.not_mem_nil, or_false] at h
    rcases h with rfl | rfl <;> dsimp only <;> omega
  | case3 left value hc rest hr ih =>
    simp only [List.mem_cons] at h
    rcases h with rfl | rfl | h
    · dsimp only
      omega
    · dsimp only
      omega
    · have := ih h
      omega

lemma forall_mem_ofInt_eq_false_iff {n : Nat} (hv : value < 2 ^ n) :
    (∀ b ∈ Bits.ofInt n value, b = false) ↔ value = 0 := by
  rw [← Bits.toNat_eq_zero_iff, Bits.toNat_ofInt_of_lt hv]

/-- A code without a set bit is that of zero: a number above zero sets a payload bit or asks
for more chunks. -/
lemma encodeFrom_eq_zero_iff (hv : value < 2 ^ left) :
    (∀ b ∈ c.encodeFrom left value, b = false) ↔ value = 0 := by
  by_cases h : left ≤ c.length
  · rw [encodeFrom_last h, forall_mem_ofInt_eq_false_iff hv]
  · by_cases hlt : value < 2 ^ c.length
    · rw [encodeFrom_stop h hlt, List.forall_mem_append, forall_mem_ofInt_eq_false_iff hlt]
      simp
    · rw [encodeFrom_more h hlt]
      constructor
      · intro hall
        exact absurd (hall true (by simp)) (by decide)
      · rintro rfl
        exact absurd (Nat.two_pow_pos c.length) hlt

end From

section Width

variable {c} {value : Nat} (hv : value < 2 ^ c.width.bits)
include hv

lemma decode_encode_append (rest : Bits) :
    c.decode (c.encode value ++ rest) = some (value, rest) :=
  decodeFrom_encodeFrom_append hv rest

lemma encode_eq_zero_iff : (∀ b ∈ c.encode value, b = false) ↔ value = 0 :=
  encodeFrom_eq_zero_iff hv

end Width

lemma length_encode (value : Nat) : (c.encode value).length = c.size value := length_encodeFrom

lemma size_pos (value : Nat) : 0 < c.size value := sizeFrom_pos c.width.bits_pos

lemma flatMap_pieces (value : Nat) : (c.pieces value).flatMap Piece.bits = c.encode value :=
  flatMap_piecesFrom

/-- Every piece is within the limit of one raw operation. -/
lemma count_le_of_mem_pieces {value : Nat} {p : Piece} (h : p ∈ c.pieces value) :
    p.count ≤ 64 := by
  have h1 := count_le_of_mem_piecesFrom h
  have h2 := c.width.bits_le
  omega

end Chunking
end BitPack
