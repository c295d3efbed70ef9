/-
# Decoding in words of different sizes

Larger words complete the same bytes with more zeros, and these follow what smaller words have
ahead.  A field that is read off a run is read off any longer run
(`Params.ReadsOff.append`), so no value is lost or changed by larger words, and where these fail
smaller ones have failed before.  The soft end of larger words comes no later than that of smaller
ones, and what lies between the two are zeros (`decode_mono_wordSize`).
-/
import BitPack.Proofs.CutCodes
import BitPack.Proofs.Stopping

namespace BitPack

/-! ## Longer words -/

lemma Width.bits_dvd_bits {w w' : Width} (h : w.bits ≤ w'.bits) : w.bits ∣ w'.bits := by
  cases w <;> cases w' <;> revert h <;> decide

/-- Completing to a multiple of a larger number adds zeros, fewer by a word of the smaller size
than the larger one. -/
lemma Bits.exists_pad_eq_append {m n : Nat} (hm : 0 < m) (hn : 0 < n) (hmn : m ∣ n) (s : Bits) :
    ∃ z, pad n s = pad m s ++ List.replicate z false ∧ m + z ≤ n := by
  refine ⟨_, by rw [← pad_pad hn hm hmn, pad], ?_⟩
  have hlt := mul_wordsNeeded_lt hn (pad m s).length
  have hle := le_mul_wordsNeeded hn (pad m s).length
  obtain ⟨d, rfl⟩ := hmn
  rw [length_pad hm] at hlt hle ⊢
  -- counted in words of the smaller size
  rw [Nat.mul_assoc, ← Nat.mul_add, Nat.mul_lt_mul_left hm] at hlt
  have hcount := Nat.mul_le_mul_left m (Nat.succ_le_of_lt hlt)
  rw [Nat.mul_succ, Nat.mul_add, ← Nat.mul_assoc] at hcount
  omega

namespace Params

variable {p : Params} {t rest : Bits} {vs : List Int}

/-! ## Values ahead in longer runs -/

namespace ReadsOff

/-- What is read off a run is read off any longer one. -/
lemma append (h : p.ReadsOff t vs rest) (z : Bits) : p.ReadsOff (t ++ z) vs (rest ++ z) := by
  induction h with
  | nil t => exact .nil _
  | cons hd _ ih => exact .cons (Chunking.decodeFrom_append hd z) ih

/-- Off zeros only zeros are read. -/
lemma eq_replicate (h : p.ReadsOff t vs rest) (ht : ∀ b ∈ t, b = false) :
    vs = List.replicate vs.length 0 := by
  induction h with
  | nil t => rfl
  | cons hd _ ih =>
    obtain ⟨hzero, hrest⟩ := Chunking.eq_zero_of_decode ht hd
    rw [hzero, value_zero, List.length_cons, List.replicate_succ, ← ih hrest]

end ReadsOff

lemma length_valuesAhead_le (p : Params) (n : Nat) (t : Bits) :
    (p.valuesAhead n t).length ≤ n := by
  fun_induction valuesAhead p n t with
  | case1 => exact Nat.le_refl 0
  | case2 n t u rest hd ih => exact Nat.succ_le_succ ih
  | case3 => exact Nat.zero_le _

lemma exists_readsOff_valuesAhead (p : Params) (n : Nat) (t : Bits) :
    ∃ rest, p.ReadsOff t (p.valuesAhead n t) rest := by
  fun_induction valuesAhead p n t with
  | case1 t => exact ⟨t, .nil t⟩
  | case2 n t u rest hd ih =>
    obtain ⟨last, h⟩ := ih
    exact ⟨last, .cons hd h⟩
  | case3 n t hd => exact ⟨t, .nil t⟩

/-- In a longer run further values may be ahead behind those of the run. -/
lemma exists_valuesAhead_append (p : Params) (n : Nat) (t z : Bits) :
    ∃ vs, p.valuesAhead n (t ++ z) = p.valuesAhead n t ++ vs := by
  obtain ⟨rest, h⟩ := p.exists_readsOff_valuesAhead n t
  have hlen := p.length_valuesAhead_le n t
  exact ⟨_, by rw [(h.append z).valuesAhead_eq n, List.take_of_length_le hlen]⟩

/-! ## The soft end in longer runs -/

/-- If behind some fields a word has room for the rest, which has no set bit, and for further zeros,
decoding all values gives those of the fields but for zeros at the end. -/
lemma ReadsOff.result_decodeAllFrom_append {base r : Reader} (hfit : base.Fits) {z : Nat}
    (h : p.ReadsOff t vs rest) (hzeros : ∀ b ∈ rest, b = false)
    (hword : rest.length + z ≤ base.wordSize.bits)
    (hr : Reader.Ahead base r (t ++ List.replicate z false)) (index : Nat) :
    ∃ vs' k, (decodeAllFrom p index r).result = .ok vs' ∧ vs = vs' ++ List.replicate k 0 := by
  induction h generalizing r index with
  | nil t =>
    have hsoft : r.onlyZeroesLeft = true := by
      rw [Reader.onlyZeroesLeft_iff hfit hr, List.length_append, List.length_replicate,
        List.forall_mem_append]
      exact ⟨hword, hzeros, fun b hb => List.eq_of_mem_replicate hb⟩
    exact ⟨[], 0, result_decodeAllFrom_of_onlyZeroesLeft hsoft index, rfl⟩
  | @cons t mid rest u vs hd hvs ih =>
    rcases hsoft : r.onlyZeroesLeft with _ | _
    · obtain ⟨r', hrun, hr'⟩ :=
        readField_of_some hfit (Chunking.decodeFrom_append hd (List.replicate z false)) hr
      obtain ⟨vs', k, hresult, rfl⟩ := ih hzeros hword hr' (index + 1)
      refine ⟨p.value u :: vs', k, ?_, rfl⟩
      rw [result_decodeAllFrom_of_value hsoft hrun, hresult]
      rfl
    · -- the larger word is at its soft end here already, so all values from here on are zeros
      obtain ⟨-, hall⟩ := (Reader.onlyZeroesLeft_iff hfit hr).mp hsoft
      obtain ⟨ht, -⟩ := List.forall_mem_append.mp hall
      exact ⟨[], (p.value u :: vs).length, result_decodeAllFrom_of_onlyZeroesLeft hsoft index,
        (ReadsOff.cons hd hvs).eq_replicate ht⟩

end Params

section Larger

variable {p : Params} {data : Bytes} {w w' : Width} (h : w.bits ≤ w'.bits)
include h

lemma exists_valuesAhead_pad (p : Params) (n : Nat) (s : Bits) :
    ∃ more, p.valuesAhead n (Bits.pad w'.bits s) =
      p.valuesAhead n (Bits.pad w.bits s) ++ more := by
  obtain ⟨z, hpad, -⟩ :=
    Bits.exists_pad_eq_append w.bits_pos w'.bits_pos (Width.bits_dvd_bits h) s
  rw [hpad]
  exact p.exists_valuesAhead_append n _ _

/-- As many values as asked for are decoded in larger words too. -/
lemma result_decode_of_le {count : Int} {vs : List Int}
    (hok : (decode p w data count).result = .ok vs) :
    (decode p w' data count).result = .ok vs := by
  rcases Int.lt_or_le count 0 with hneg | hnonneg
  · simp [decode, hneg] at hok
  · obtain ⟨n, rfl⟩ := Int.eq_ofNat_of_zero_le hnonneg
    obtain ⟨more, hmore⟩ := exists_valuesAhead_pad h p n (Bytes.toBits data)
    have hle := p.length_valuesAhead_le n (Bits.pad w'.bits (Bytes.toBits data))
    rw [hmore, List.length_append] at hle
    rw [result_decode_eq_ite] at hok ⊢
    split at hok
    · next hlen =>
      obtain rfl : more = [] := List.length_eq_zero_iff.mp (by omega)
      rw [hmore, List.append_nil, if_pos hlen, hok]
    · simp at hok

/-- If larger words end inside a value, smaller ones do so inside the same or one in front of
it. -/
lemma exists_truncated_of_le {n : Nat} {e : Error}
    (herr : (decode p w' data n).result = .error e) :
    ∃ i i', i ≤ i' ∧ e = .truncated i' (some n) ∧
      (decode p w data n).result = .error (.truncated i (some n)) := by
  obtain ⟨more, hmore⟩ := exists_valuesAhead_pad h p n (Bytes.toBits data)
  have hle := p.length_valuesAhead_le n (Bits.pad w'.bits (Bytes.toBits data))
  rw [result_decode_eq_ite] at herr ⊢
  split at herr
  · simp at herr
  · next hlen =>
    rw [hmore, List.length_append] at hle hlen herr
    refine ⟨_, _, Nat.le_add_right _ more.length, (Except.error.inj herr).symm, ?_⟩
    rw [if_neg (by omega)]

/-- If all values are decoded, larger words leave out nothing but zeros at the end. -/
lemma result_decodeAll_of_le {vs : List Int} (hok : (decodeAll p w data).result = .ok vs) :
    ∃ vs' k, (decodeAll p w' data).result = .ok vs' ∧ vs = vs' ++ List.replicate k 0 := by
  obtain ⟨z, hpad, hroom⟩ := Bits.exists_pad_eq_append w.bits_pos w'.bits_pos
    (Width.bits_dvd_bits h) (Bytes.toBits data)
  rcases result_decodeAll_cases p w data with
    ⟨us, rest, hus, hword, hzeros, hresult⟩ | ⟨us, rest, -, -, hresult⟩
  · obtain rfl : us = vs := Except.ok.inj (hresult.symm.trans hok)
    have hahead := Reader.ahead_ofBytes w' data
    rw [hpad] at hahead
    rw [result_decodeAll]
    exact hus.result_decodeAllFrom_append (Reader.fits_ofBytes w' data) hzeros
      (Nat.le_trans (Nat.add_le_add_right hword z) hroom) hahead 0
  · rw [hresult] at hok
    simp at hok

/-- **Larger words decode no less.**  What is decoded in words of one size is decoded in words of
a larger size too, and where these fail the smaller ones have failed at no higher index.  If
all values are decoded, larger words may only leave out zeros at the end. -/
theorem decode_mono_wordSize (p : Params) (data : Bytes) :
    (∀ (count : Int) vs, (decode p w data count).result = .ok vs →
        (decode p w' data count).result = .ok vs) ∧
      (∀ (n : Nat) e', (decode p w' data n).result = .error e' →
        ∃ i i', i ≤ i' ∧ e' = .truncated i' (some n) ∧
          (decode p w data n).result = .error (.truncated i (some n))) ∧
      ∀ vs, (decodeAll p w data).result = .ok vs →
        ∃ vs' k, (decodeAll p w' data).result = .ok vs' ∧ vs = vs' ++ List.replicate k 0 :=
  ⟨fun _ _ => result_decode_of_le h, fun _ _ => exists_truncated_of_le h,
    fun _ => result_decodeAll_of_le h⟩

end Larger

/-- Two values in two bytes: words of 64 bits have room for ten more zeros. -/
theorem decode_mono_wordSize_two_values :
    let p : Params := ⟨.w16, 4, false, 0, by decide, by decide⟩
    let data : Bytes := [5, 0]
    Width.w8.bits ≤ Width.w64.bits ∧
      (decode p .w8 data 2).result = .ok [5, 0] ∧ (decode p .w64 data 2).result = .ok [5, 0] ∧
      (∃ i ≤ 12, (decode p .w64 data 13).result = .error (.truncated 12 (some 13)) ∧
        (decode p .w8 data 13).result = .error (.truncated i (some 13))) ∧
      (decodeAll p .w8 data).result = .ok [5, 0] ∧
      ∃ vs' k, (decodeAll p .w64 data).result = .ok vs' ∧ [5, 0] = vs' ++ List.replicate k 0 := by
  intro p data
  have hle : Width.w8.bits ≤ Width.w64.bits := by decide
  have hdecode : (decode p .w8 data 2).result = .ok [5, 0] := by decide +kernel
  have hall : (decodeAll p .w8 data).result = .ok [5, 0] := by decide +kernel
  have hend : (decode p .w64 data 13).result = .error (.truncated 12 (some 13)) := by
    decide +kernel
  obtain ⟨hmore, hlater, hzeros⟩ := decode_mono_wordSize hle p data
  obtain ⟨i, i', hi, he, hfirst⟩ := hlater 13 _ hend
  obtain ⟨rfl, -⟩ := by simpa using he
  exact ⟨hle, hdecode, hmore 2 _ hdecode, ⟨i, hi, hend, hfirst⟩, hall, hzeros _ hall⟩

end BitPack
