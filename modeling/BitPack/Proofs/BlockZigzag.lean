/-
# The order and the range of block zigzag

Block zigzag lists the numbers by the blocks of their magnitudes, in each block those that are not
negative before the others.  The place of a number in this order is its `rank`, and codes are
ordered as the ranks are (`Zigzag.fold_lt_fold_iff`), so a number of a lower block always has the
smaller code (`Zigzag.blocks_order`).

The sign stands above the place inside a block, so a code takes one bit more than the magnitude
as long as a block does not fill the width.  With an exponent below the width the codes of the
signed numbers of that width are just the unsigned ones (`Zigzag.foldsOnto_of_lt`); with any other
exponent the code of -1 is too wide.  Therefore what has passed the checks in front of a signed
field is never refused behind them, neither by block zigzag nor by the unsigned field
(`Zigzag.blocks_range`).
-/
import BitPack.Proofs.FaithfulSink
import BitPack.Proofs.FaithfulSource
import Mathlib.Data.Prod.Lex

namespace BitPack.Zigzag

variable {k w : Nat} {u v : Int}

/-! ## Numbers of a signed width -/

/-- A number fits `w` bits in two's complement. -/
def FitsSigned (w : Nat) (v : Int) : Prop := -2 ^ (w - 1) ≤ v ∧ v < 2 ^ (w - 1)

instance (w : Nat) (v : Int) : Decidable (FitsSigned w v) :=
  inferInstanceAs (Decidable (_ ∧ _))

lemma fitsSigned_iff : FitsSigned w v ↔ magnitude v < 2 ^ (w - 1) := magnitude_lt_iff.symm

/-- With an exponent below the width, the codes of signed numbers are the unsigned numbers. -/
lemma fold_lt_iff_fitsSigned (hk : k < w) : fold k v < 2 ^ w ↔ FitsSigned w v := by
  rw [fold_lt_iff hk, fitsSigned_iff]

lemma fitsSigned_unfold (hk : k < w) {n : Nat} (hn : n < 2 ^ w) : FitsSigned w (unfold k n) := by
  rwa [← fold_lt_iff_fitsSigned hk, fold_unfold]

lemma FitsSigned.mono {w' : Nat} (h : FitsSigned w v) (hw : w ≤ w') : FitsSigned w' v := by
  rw [fitsSigned_iff] at h ⊢
  exact Nat.lt_of_lt_of_le h (Nat.pow_le_pow_right (by decide) (by omega))

/-- Every number of the signed 64-bit range has a code. -/
lemma encodeBlocks_of_fitsSigned (hk : k < 64) (hv : FitsSigned 64 v) :
    encodeBlocks v k = .ok (fold k v) :=
  encodeBlocks_eq_ok (w := .w64) hk (fitsSigned_iff.mp hv)

/-- Every number of the unsigned 64-bit range is a code. -/
lemma decodeBlocks_of_lt (hk : k < 64) {n : Nat} (hn : n < 2 ^ 64) :
    decodeBlocks n k = .ok (unfold k n) :=
  decodeBlocks_eq_ok (w := .w64) hk hn

/-! ## Order -/

/-- The place of a number in the order of block zigzag: the block of its magnitude, then its sign,
then the place of its magnitude inside the block. -/
def rank (k : Nat) (v : Int) : Nat ×ₗ Nat ×ₗ Nat :=
  toLex (magnitude v / 2 ^ k, toLex (signBit v, magnitude v % 2 ^ k))

/-- Numbers are ordered by their quotients, and by their remainders where these are the same. -/
lemma lt_iff_div_mod (d : Nat) {m n : Nat} :
    m < n ↔ m / d < n / d ∨ m / d = n / d ∧ m % d < n % d := by
  have hm := Nat.div_add_mod m d
  have hn := Nat.div_add_mod n d
  rcases Nat.lt_trichotomy (m / d) (n / d) with hlt | heq | hgt
  · simp only [hlt, true_or, iff_true]
    exact Nat.lt_of_div_lt_div hlt
  · rw [heq] at hm ⊢
    omega
  · have hle := Nat.le_of_lt (Nat.lt_of_div_lt_div hgt)
    omega

lemma fold_lt_fold_iff : fold k u < fold k v ↔ rank k u < rank k v := by
  have hu := signBit_le u
  have hv := signBit_le v
  rw [lt_iff_div_mod (2 ^ k), fold_div, fold_div, fold_mod, fold_mod, rank, rank]
  simp only [Prod.Lex.toLex_lt_toLex]
  omega

/-- In each block the code is behind the magnitude, and not more than twice as many blocks and one
more are in front of it. -/
lemma fold_bounds (k : Nat) (v : Int) :
    magnitude v ≤ fold k v ∧ fold k v ≤ 2 * magnitude v + 2 ^ k := by
  have hsign := signBit_le v
  have hmag := Nat.div_add_mod' (magnitude v) (2 ^ k)
  have hfold := Nat.div_add_mod' (fold k v) (2 ^ k)
  rw [fold_div, fold_mod, Nat.add_mul, Nat.mul_assoc] at hfold
  have hblock := Nat.mul_le_mul_right (2 ^ k) hsign
  omega

/-- **Block zigzag keeps the order of blocks.**  Any two numbers of the signed 64-bit range have
codes, and these are ordered as the numbers are by the blocks of their magnitudes, in each block
by their signs and then by their places.  So a number of a lower block has the smaller code,
whatever the signs are.  A code is not below the magnitude, and exceeds its double by one block
at most. -/
theorem blocks_order (hk : k < 64) (hu : FitsSigned 64 u) (hv : FitsSigned 64 v) :
    ∃ m n : Nat, encodeBlocks u k = .ok m ∧ encodeBlocks v k = .ok n ∧
      (m < n ↔ rank k u < rank k v) ∧
      (magnitude u / 2 ^ k < magnitude v / 2 ^ k → m < n) ∧
      magnitude u ≤ m ∧ m ≤ 2 * magnitude u + 2 ^ k := by
  refine ⟨fold k u, fold k v, encodeBlocks_of_fitsSigned hk hu, encodeBlocks_of_fitsSigned hk hv,
    fold_lt_fold_iff, ?_, fold_bounds k u⟩
  intro hblock
  rw [fold_lt_fold_iff, rank, rank, Prod.Lex.toLex_lt_toLex]
  exact .inl hblock

/-- With blocks of four numbers, -4 is the last one of its block and 4 the first one of the next. -/
theorem blocks_order_four :
    FitsSigned 64 (-4) ∧ FitsSigned 64 4 ∧ magnitude (-4) / 2 ^ 2 < magnitude 4 / 2 ^ 2 ∧
      ∃ m n : Nat, encodeBlocks (-4) 2 = .ok m ∧ encodeBlocks 4 2 = .ok n ∧ m < n ∧
        rank 2 (-4) < rank 2 4 := by
  have hu : FitsSigned 64 (-4) := by decide
  have hv : FitsSigned 64 4 := by decide
  have hblocks : magnitude (-4) / 2 ^ 2 < magnitude 4 / 2 ^ 2 := by decide
  obtain ⟨m, n, hm, hn, horder, hblock, -, -⟩ := blocks_order (k := 2) (by decide) hu hv
  exact ⟨hu, hv, hblocks, m, n, hm, hn, hblock hblocks, horder.mp (hblock hblocks)⟩

/-! ## Range -/

/-- Block zigzag is one-to-one between the signed and the unsigned numbers of `w` bits, both ways,
and all other numbers have wider codes. -/
structure FoldsOnto (k w : Nat) : Prop where
  encode {v : Int} (hv : FitsSigned w v) :
    ∃ n : Nat, encodeBlocks v k = .ok n ∧ n < 2 ^ w ∧ decodeBlocks n k = .ok v
  decode {n : Nat} (hn : n < 2 ^ w) :
    ∃ v, decodeBlocks n k = .ok v ∧ FitsSigned w v ∧ encodeBlocks v k = .ok n
  exceed {v : Int} (hv : FitsSigned 64 v) (hnot : ¬FitsSigned w v) :
    ∃ n : Nat, encodeBlocks v k = .ok n ∧ 2 ^ w ≤ n

lemma foldsOnto_of_lt (hk : k < w) (hw : w ≤ 64) : FoldsOnto k w where
  encode {v} hv := by
    have hlt : fold k v < 2 ^ w := (fold_lt_iff_fitsSigned hk).mpr hv
    have hlt64 : fold k v < 2 ^ 64 :=
      Nat.lt_of_lt_of_le hlt (Nat.pow_le_pow_right (by decide) hw)
    refine ⟨fold k v, encodeBlocks_of_fitsSigned (by omega) (hv.mono hw), hlt, ?_⟩
    rw [decodeBlocks_of_lt (by omega) hlt64, unfold_fold]
  decode {n} hn := by
    have hlt64 : n < 2 ^ 64 := Nat.lt_of_lt_of_le hn (Nat.pow_le_pow_right (by decide) hw)
    have hfits := fitsSigned_unfold hk hn
    refine ⟨unfold k n, decodeBlocks_of_lt (by omega) hlt64, hfits, ?_⟩
    rw [encodeBlocks_of_fitsSigned (by omega) (hfits.mono hw), fold_unfold]
  exceed {v} hv hnot := by
    rw [← fold_lt_iff_fitsSigned hk] at hnot
    exact ⟨fold k v, encodeBlocks_of_fitsSigned (by omega) hv, Nat.le_of_not_lt hnot⟩

/-- In front of -1 stands a whole block of numbers that are not negative. -/
lemma fold_neg_one (k : Nat) : fold k (-1) = 2 ^ k := by
  have hmag : magnitude (-1) = 0 := rfl
  have hneg : ¬(0 : Int) ≤ -1 := by decide
  rw [fold, hmag, if_neg hneg]
  simp

/-! ## Signed fields -/

section Fields

variable {σ : Type} {c : Chunking} {chunkLength exponent width : Int}
  (hc : Chunking.ofInts chunkLength width = .ok c)
  (hk : checkZigzagExponent exponent width = .ok k)
include hc hk

/-- Behind the checks of a signed write there are only its raw writes. -/
lemma run_writeSigned [BitSink σ] (hv : checkSigned v width = .ok ()) (s : σ) :
    (BitSink.writeSigned v chunkLength exponent width).run s =
      (BitSink.writePieces (c.pieces (fold k v))).run s := by
  obtain ⟨rfl, rfl⟩ := Chunking.ofInts_eq_ok_iff.mp hc
  obtain ⟨rfl, hlt⟩ := checkZigzagExponent_eq_ok_iff.mp hk
  have hmag := (checkSigned_eq_ok_iff c.width.bits_pos).mp hv
  have hfold : checkUnsigned (fold k v) c.width.bits = .ok (fold k v) :=
    checkUnsigned_eq_ok_iff.mpr ⟨rfl, (fold_lt_iff hlt v).mpr hmag⟩
  simp only [BitSink.writeSigned, BitSink.writeUnsigned, EStateM.run_bind, run_liftM_ok, hc, hk, hv,
    encodeBlocks_eq_ok hlt hmag, hfold]

/-- A number of the width that is read is unfolded. -/
lemma run_readSigned [BitSource σ] {s s' : σ} {n : Nat} (hn : n < 2 ^ c.width.bits)
    (hread : (BitSource.readUnsigned chunkLength width).run s = .ok (.value n) s') :
    (BitSource.readSigned chunkLength exponent width).run s = .ok (.value (unfold k n)) s' := by
  obtain ⟨rfl, rfl⟩ := Chunking.ofInts_eq_ok_iff.mp hc
  obtain ⟨rfl, hlt⟩ := checkZigzagExponent_eq_ok_iff.mp hk
  have hchunks : (BitSource.readChunks c 0 0).run s = .ok (.value n) s' := by
    simpa only [BitSource.readUnsigned, EStateM.run_bind, run_liftM_ok, hc] using hread
  simp only [BitSource.readSigned, EStateM.run_bind, run_liftM_ok, hc, hk, hchunks,
    decodeBlocks_eq_ok hlt hn, EStateM.run_pure]

end Fields

/-- A signed field whose arguments have passed the checks is not refused behind them.  Any
destination is only given the raw writes of the code, which a faithful one takes, and a number of
the width that is read from any source is unfolded to a signed one. -/
structure NotRefused (chunkLength exponent width : Int) (c : Chunking) (k : Nat) : Prop where
  writes {σ : Type} [BitSink σ] {v : Int} (hv : checkSigned v width = .ok ()) (s : σ) :
    (BitSink.writeSigned v chunkLength exponent width).run s =
      (BitSink.writePieces (c.pieces (fold k v))).run s
  appends {σ : Type} [BitSink σ] {R : σ → Bits → Prop} (hR : BitSink.Faithful R) {s : σ} {t : Bits}
    (h : R s t) {v : Int} (hv : checkSigned v width = .ok ()) :
    ∃ s', (BitSink.writeSigned v chunkLength exponent width).run s = .ok () s' ∧
      R s' (t ++ c.encode (fold k v))
  reads {σ : Type} [BitSource σ] {s s' : σ} {n : Nat} (hn : n < 2 ^ c.width.bits)
    (hread : (BitSource.readUnsigned chunkLength width).run s = .ok (.value n) s') :
    ∃ v, decodeBlocks n k = .ok v ∧ FitsSigned c.width.bits v ∧
      (BitSource.readSigned chunkLength exponent width).run s = .ok (.value v) s'

lemma notRefused {c : Chunking} {chunkLength exponent width : Int}
    (hc : Chunking.ofInts chunkLength width = .ok c)
    (hk : checkZigzagExponent exponent width = .ok k) :
    NotRefused chunkLength exponent width c k where
  writes hv s := run_writeSigned hc hk hv s
  appends {σ _ R} hR {s t} h {v} hv := by
    rw [run_writeSigned hc hk hv, ← c.flatMap_pieces]
    exact BitSink.appends_writePieces hR h fun p hp => c.count_le_of_mem_pieces hp
  reads {σ _ s s' n} hn hread := by
    obtain ⟨rfl, -⟩ := Chunking.ofInts_eq_ok_iff.mp hc
    obtain ⟨-, hlt⟩ := checkZigzagExponent_eq_ok_iff.mp hk
    exact ⟨unfold k n, decodeBlocks_eq_ok hlt hn, fitsSigned_unfold hlt hn,
      run_readSigned hc hk hn hread⟩

/-- **The range of block zigzag.**  For any width up to 64 bits, block zigzag is one-to-one between
the signed and the unsigned numbers of the width exactly if its exponent is below the width; with
any other exponent -1 has a code that is too wide.  Hence signed fields with arguments that have
passed the checks are not refused behind them. -/
theorem blocks_range (hw : w ≤ 64) (hk : k < 64) :
    (FoldsOnto k w ↔ k < w) ∧
    (w ≤ k → FitsSigned w (-1) ∧ ∃ n : Nat, encodeBlocks (-1) k = .ok n ∧ 2 ^ w ≤ n) ∧
    ∀ {chunkLength exponent width : Int} {c : Chunking} {j : Nat},
      Chunking.ofInts chunkLength width = .ok c → checkZigzagExponent exponent width = .ok j →
        NotRefused chunkLength exponent width c j := by
  have hfits : ∀ w', FitsSigned w' (-1) := fun w' => fitsSigned_iff.mpr (Nat.two_pow_pos _)
  have hcode : encodeBlocks (-1) k = .ok (2 ^ k) := by
    rw [encodeBlocks_of_fitsSigned hk (hfits 64), fold_neg_one]
  refine ⟨⟨?_, fun hlt => foldsOnto_of_lt hlt hw⟩, ?_, fun hc hj => notRefused hc hj⟩
  · intro honto
    obtain ⟨n, hn, hlt, -⟩ := honto.encode (hfits w)
    rw [hcode, Except.ok.injEq] at hn
    rw [← hn] at hlt
    exact (Nat.pow_lt_pow_iff_right (by decide)).mp hlt
  · intro hle
    exact ⟨hfits w, 2 ^ k, hcode, Nat.pow_le_pow_right (by decide) hle⟩

/-- Of 8 bits, blocks of 128 numbers leave one bit for the sign and blocks of 256 none. -/
theorem blocks_range_eight :
    FoldsOnto 7 8 ∧ NotRefused 3 7 8 ⟨.w8, 3, by decide⟩ 7 ∧
      ¬FoldsOnto 8 8 ∧ ∃ n : Nat, encodeBlocks (-1) 8 = .ok n ∧ 2 ^ 8 ≤ n := by
  obtain ⟨honto, -, hfields⟩ := blocks_range (w := 8) (k := 7) (by decide) (by decide)
  obtain ⟨hnot, htooWide, -⟩ := blocks_range (w := 8) (k := 8) (by decide) (by decide)
  exact ⟨honto.mpr (by decide), hfields rfl rfl, fun h => absurd (hnot.mp h) (by decide),
    (htooWide (by decide)).2⟩

end BitPack.Zigzag
