/-
# Texts, bitsets and buffers turned into each other

A stream text is made up of the characters `0` and `1` (`BitText.IsStream`); it is the text of one
run of bits (`BitText.isStream_iff`).  Turned into a buffer and back it comes out completed to a
whole word, and a buffer turned into a text and back comes out with its words reduced to their
size, so both ways lose nothing but what does not fit.  A text with any other character is refused
as a buffer, with an error that shows the first piece that has one
(`BitText.toBuffer_eq_error_iff`).  All of this holds for words of any number of bits
(`BitText.conversions_inverse`).
-/
import BitPack.Proofs.StreamText

namespace BitPack.BitText

variable {n : Nat} {text : String}

/-! ## Stream texts -/

/-- A text of the characters `0` and `1`. -/
def IsStream (text : String) : Prop := ∀ c ∈ text.toList, c = '0' ∨ c = '1'

instance (text : String) : Decidable (IsStream text) :=
  List.decidableBAll (fun c => c = '0' ∨ c = '1') text.toList

/-- The stream texts are the texts of runs. -/
lemma isStream_iff : IsStream text ↔ ∃ s, text = ofBits s := by
  constructor
  · intro h
    refine ⟨text.toList.map (· == '1'), String.toList_injective ?_⟩
    have hchar : ∀ c ∈ text.toList, (charOfBit ∘ (· == '1')) c = id c := by
      intro c hc
      rcases h c hc with rfl | rfl <;> rfl
    rw [toList_ofBits, List.map_map, List.map_congr_left hchar, List.map_id]
  · rintro ⟨s, rfl⟩ c hc
    rw [toList_ofBits, List.mem_map] at hc
    obtain ⟨b, -, rfl⟩ := hc
    cases b
    · exact .inl rfl
    · exact .inr rfl

/-- Any other text stands for no bits. -/
lemma toBits?_eq_none_iff : toBits? text = none ↔ ¬IsStream text := by
  rw [isStream_iff, ← Option.not_isSome_iff_eq_none, Option.isSome_iff_exists]
  simp only [toBits?_eq_some_iff]

/-! ## Buffers -/

lemma flatten_pieces {α : Type} (hn : 0 < n) (s : List α) : (pieces n s).flatten = s := by
  fun_induction pieces n s with
  | case1 s h =>
    have hnil : s = [] := List.eq_nil_of_length_eq_zero (h.resolve_left (Nat.ne_of_gt hn))
    rw [hnil, List.flatten_nil]
  | case2 s h ih => rw [List.flatten_cons, ih, List.take_append_drop]

/-- The first of several pieces that is no stream text. -/
def firstStray (ps : List (List Char)) : Option (List Char) :=
  ps.find? fun p => ¬IsStream (String.ofList p)

lemma firstStray_pieces_eq_none_iff (hn : 0 < n) :
    firstStray (pieces n text.toList) = none ↔ IsStream text := by
  have hflat := List.forall_mem_flatten (p := fun c => c = '0' ∨ c = '1')
    (L := pieces n text.toList)
  rw [flatten_pieces hn] at hflat
  rw [IsStream, hflat, firstStray, List.find?_eq_none]
  simp only [decide_eq_true_eq, Decidable.not_not, IsStream, String.toList_ofList]

/-- Pieces that fit a word are turned into bitsets up to the first one that is no stream text. -/
lemma mapM_toBitset_eq_error {ps : List (List Char)} (hlen : ∀ p ∈ ps, p.length ≤ n)
    {p : List Char} (h : firstStray ps = some p) :
    (ps.mapM fun p => toBitset (String.ofList p) n) =
      .error (.textCharacter (String.ofList p)) := by
  induction ps with
  | nil => simp [firstStray] at h
  | cons q ps ih =>
    rw [List.forall_mem_cons] at hlen
    rw [List.mapM_cons]
    by_cases hq : IsStream (String.ofList q)
    · obtain ⟨s, hs⟩ := isStream_iff.mp hq
      have hfits : s.length ≤ n := by
        rw [← length_ofBits, ← hs, String.length_ofList]
        exact hlen.1
      rw [firstStray, List.find?_cons_of_neg (by simpa using hq)] at h
      rw [hs, toBitset_ofBits hfits, ih hlen.2 h]
      rfl
    · rw [firstStray, List.find?_cons_of_pos (by simpa using hq)] at h
      obtain rfl := Option.some.inj h
      have hfits : ¬(n : Int) < (String.ofList q).length := by
        rw [String.length_ofList]
        omega
      rw [toBitset, if_neg hfits, toBits?_eq_none_iff.mpr hq]
      rfl

/-- Just the texts that are no stream texts are refused as buffers. -/
lemma toBuffer_eq_error_iff (hn : 0 < n) {e : Error} :
    toBuffer text n = .error e ↔
      ∃ p, firstStray (pieces n text.toList) = some p ∧ e = .textCharacter (String.ofList p) := by
  rcases hstray : firstStray (pieces n text.toList) with _ | p
  · obtain ⟨s, rfl⟩ := isStream_iff.mp ((firstStray_pieces_eq_none_iff hn).mp hstray)
    rw [toBuffer_ofBits hn]
    simp
  · have herror : toBuffer text n = .error (.textCharacter (String.ofList p)) := by
      rw [toBuffer, if_neg (by omega), Int.toNat_natCast]
      exact mapM_toBitset_eq_error (fun q hq => length_le_of_mem_pieces hq) hstray
    rw [herror]
    simp only [Except.error.injEq, Option.some.injEq, exists_eq_left', eq_comm]

/-! ## Padding -/

lemma padTo_of_dvd (hn : 0 < n) (h : n ∣ text.length) : padTo text n = .ok text := by
  rw [padTo, if_neg (by omega), fmod_length, Nat.mod_eq_zero_of_dvd h]
  rfl

/-- Any text is completed to a multiple of a number of characters by fewer zeros than these. -/
lemma exists_padTo_eq_append (hn : 0 < n) (text : String) :
    ∃ k < n, n ∣ text.length + k ∧
      padTo text n = .ok (text ++ String.ofList (List.replicate k '0')) := by
  by_cases hdvd : n ∣ text.length
  · refine ⟨0, hn, hdvd, ?_⟩
    rw [padTo_of_dvd hn hdvd, List.replicate_zero, String.ofList_nil, String.append_empty]
  · have hlt := Nat.mod_lt text.length hn
    have hdiv := Nat.div_add_mod text.length n
    have hpos : 0 < text.length % n := Nat.pos_of_ne_zero fun h => hdvd (Nat.dvd_of_mod_eq_zero h)
    refine ⟨n - text.length % n, by omega, ⟨text.length / n + 1, by rw [Nat.mul_succ]; omega⟩, ?_⟩
    have hzeros : ((n : Int) - (text.length % n : Nat)).toNat = n - text.length % n := by omega
    rw [padTo, if_neg (by omega), fmod_length]
    dsimp only
    rw [if_neg (by omega), hzeros]

/-! ## Bitsets -/

/-- The first bits of a bitset are shown as the text of a run. -/
lemma ofBitset_of_le {size : Nat} {count : Option Int} (hcount : count.getD size = n)
    (hn : n ≤ size) (b : Int) : ofBitset b size count = .ok (ofBits (Bits.ofInt n b)) := by
  rw [ofBitset, hcount, checkCount_natCast (by omega)]
  rfl

/-! ## Both ways -/

/-- **Texts, bitsets and buffers are turned into each other without loss.**  For words of any
number of bits, a stream text turned into a buffer and back is the text completed to a whole word,
and a buffer turned into a text and back has its words reduced to their size.  Completing any text
appends less than a word of zeros, and completing it again changes nothing.  A text is refused as a
buffer exactly if it has another character, and the error shows the first piece with one.  The
first bits of a bitset turned into a text and back are what is left of the number modulo a power of
two, and a stream text that a bitset has room for is shown again by as many bits of it. -/
theorem conversions_inverse {w : Nat} (hw : 0 < w) :
    (∀ text, IsStream text → ∃ words padded, toBuffer text w = .ok words ∧
      padTo text w = .ok padded ∧ ofBuffer (words.map Int.ofNat) w = .ok padded) ∧
    (∀ b : List Int, ∃ text words, ofBuffer b w = .ok text ∧ toBuffer text w = .ok words ∧
      words.map Int.ofNat = b.map fun x => x % 2 ^ w) ∧
    (∀ text, ∃ k < w, ∃ padded, padded = text ++ String.ofList (List.replicate k '0') ∧
      padTo text w = .ok padded ∧ padTo padded w = .ok padded) ∧
    (∀ text, ((∃ e, toBuffer text w = .error e) ↔ ∃ c ∈ text.toList, c ≠ '0' ∧ c ≠ '1') ∧
      ∀ e, toBuffer text w = .error e → ∃ p, firstStray (pieces w text.toList) = some p ∧
        e = .textCharacter (String.ofList p)) ∧
    (∀ (b : Int) (size n : Nat) (count : Option Int), count.getD size = n → n ≤ size →
      ∃ text x, ofBitset b size count = .ok text ∧ toBitset text size = .ok x ∧
        (x : Int) = b % 2 ^ n) ∧
    ∀ (text : String) (size : Nat), IsStream text → text.length ≤ size →
      ∃ x : Nat, toBitset text size = .ok x ∧ ofBitset x size (some text.length) = .ok text := by
  refine ⟨?_, ?_, ?_, ?_, ?_, ?_⟩
  · intro text htext
    obtain ⟨s, rfl⟩ := isStream_iff.mp htext
    refine ⟨_, _, toBuffer_ofBits hw s, padTo_ofBits hw s, ?_⟩
    rw [ofBuffer_natCast]
    exact congrArg Except.ok (ofWords_toWords hw s)
  · intro b
    refine ⟨_, _, ofBuffer_natCast w b, toBuffer_ofBits hw _, ?_⟩
    rw [← Bits.unpack, Bits.toWords_unpack hw, List.map_map]
    exact List.map_congr_left fun x _ => Bits.coe_low w x
  · intro text
    obtain ⟨k, hk, hdvd, hpad⟩ := exists_padTo_eq_append hw text
    refine ⟨k, hk, _, rfl, hpad, padTo_of_dvd hw ?_⟩
    rwa [String.length_append, String.length_ofList, List.length_replicate]
  · intro text
    refine ⟨?_, fun e he => (toBuffer_eq_error_iff hw).mp he⟩
    have hstray : (∃ c ∈ text.toList, c ≠ '0' ∧ c ≠ '1') ↔ ¬IsStream text := by
      simp [IsStream]
    rw [hstray, ← firstStray_pieces_eq_none_iff hw, ← ne_eq, Option.ne_none_iff_exists']
    simp only [toBuffer_eq_error_iff hw]
    exact ⟨fun ⟨e, p, hp, _⟩ => ⟨p, hp⟩, fun ⟨p, hp⟩ => ⟨_, p, hp, rfl⟩⟩
  · intro b size n count hcount hn
    refine ⟨_, _, ofBitset_of_le hcount hn b, toBitset_ofBits ?_, ?_⟩
    · rwa [Bits.length_ofInt]
    · rw [Bits.toNat_ofInt, Bits.coe_low]
  · intro text size htext hlen
    obtain ⟨s, rfl⟩ := isStream_iff.mp htext
    rw [length_ofBits] at hlen ⊢
    refine ⟨_, toBitset_ofBits hlen, ?_⟩
    rw [ofBitset_of_le rfl hlen, Bits.ofInt_toNat]

/-- Five characters are completed to two words of three bits, and the words of two integers that do
not fit are reduced; a bitset of four bits is shown by three of them. -/
theorem conversions_inverse_three_bits :
    0 < 3 ∧ IsStream "10110" ∧ 3 ≤ 4 ∧
      (∃ words padded, toBuffer "10110" 3 = .ok words ∧ padTo "10110" 3 = .ok padded ∧
        ofBuffer (words.map Int.ofNat) 3 = .ok padded) ∧
      (∃ text words, ofBuffer [-1, 9] 3 = .ok text ∧ toBuffer text 3 = .ok words ∧
        words.map Int.ofNat = [7, 1]) ∧
      (∃ e, toBuffer "10120" 3 = .error e) ∧
      (∃ text x, ofBitset (-3) 4 (some 3) = .ok text ∧ toBitset text 4 = .ok x ∧ (x : Int) = 5) ∧
      ∃ x : Nat, toBitset "10110" 8 = .ok x ∧ ofBitset x 8 (some 5) = .ok "10110" := by
  obtain ⟨hbuffer, hwords, -, hrefused, hbitset, htext⟩ := conversions_inverse (w := 3) (by decide)
  have hstream : IsStream "10110" := by decide
  refine ⟨by decide, hstream, by decide, hbuffer _ hstream, hwords [-1, 9], ?_,
    hbitset (-3) 4 3 (some 3) rfl (by decide), htext _ 8 hstream (by decide)⟩
  exact (hrefused "10120").1.mpr ⟨'2', by decide, by decide⟩

end BitPack.BitText
