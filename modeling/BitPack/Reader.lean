/-
# Readers over words

A reader takes bits from words of one size, the lowest bit of the first word first, and never
goes back.  The words may be any integers; a word counts by its low bits in two's complement.
-/
import BitPack.Bytes
import BitPack.Segment
import BitPack.Source
import BitPack.Sink

namespace BitPack

/-- The number formed by the `count` low bits of an integer of `width` bits.  The integer is
left as it is when all its bits are meant. -/
def lowerBits (width count : Nat) (x : Int) : Int :=
  if count = width then x else Bits.low count x

/-- The number formed by the low bits of an integer, the number of which is checked. -/
def checkedLowerBits (value count width : Int) : Except Error Int :=
  if count = width ∧ 0 ≤ count then .ok value
  else do
    let n ← checkCount width count
    return Bits.low n value

/-- Within the width the check makes no difference. -/
theorem checkedLowerBits_natCast {width count : Nat} (h : count ≤ width) (x : Int) :
    checkedLowerBits x count width = .ok (lowerBits width count x) := by
  have hcheck : checkCount width count = .ok count :=
    checkCount_eq_ok_iff.mpr ⟨rfl, by exact_mod_cast h⟩
  unfold checkedLowerBits lowerBits
  by_cases heq : count = width
  · rw [if_pos ⟨by exact_mod_cast heq, Int.natCast_nonneg _⟩, if_pos heq]
  · rw [if_neg (fun hand => heq (by exact_mod_cast hand.1)), if_neg heq, hcheck]
    rfl

/-- A reader: its words and the number of bits taken. -/
structure Reader where
  /-- The size of the words. -/
  wordSize : Width
  /-- The words. -/
  words : Array Int
  /-- The number of bits taken. -/
  position : Nat
deriving DecidableEq, Repr

namespace Reader

/-- A reader over words, which are not checked. -/
def ofRaw (w : Width) (words : List Int) : Reader := ⟨w, words.toArray, 0⟩

/-- A reader over words, each of which has to fit its size. -/
def ofWords (w : Width) (words : List Int) : Except Error Reader :=
  match words.find? fun x : Int => x < 0 ∨ x >>> w.bits ≠ 0 with
  | some x => .error (.wordTooWide x w.bits)
  | none => .ok (ofRaw w words)

/-- A reader over bytes, which a little-endian host takes for words; the last one is completed with
zeros. -/
def ofBytes (w : Width) (data : Bytes) : Reader :=
  ofRaw w ((Bytes.toWords w data).map fun x : Nat => (x : Int))

/-- The number of bits of all words. -/
def capacity (r : Reader) : Nat := r.words.size * r.wordSize.bits

/-- The number of bits not taken yet. -/
def bitsRemaining (r : Reader) : Nat := r.capacity - r.position

/-- The event of making a reader. -/
def created (r : Reader) : Event := .readerCreated r.wordSize.bits r.capacity

/-- The word at an index; there is none beyond the last one. -/
def word (r : Reader) (i : Nat) : Int := r.words.getD i 0

/-- The number formed by the bits in the given segments. -/
def gather (r : Reader) : List Segment → Int
  | [] => 0
  | s :: ss =>
    lowerBits 64 s.length (r.word s.word >>> s.offset) + 2 ^ s.length * r.gather ss

/-- Takes `n` bits, or those that are left. -/
def take (r : Reader) (n : Nat) : Taken × Reader :=
  let m := min n r.bitsRemaining
  (⟨r.gather (segments r.wordSize r.position m), m⟩, { r with position := r.position + m })

/-- Whether every bit has been taken. -/
def reachedEnd (r : Reader) : Bool := r.capacity ≤ r.position

/-- Whether every bit has been taken or only zero bits of the last word are left. -/
def onlyZeroesLeft (r : Reader) : Bool :=
  r.reachedEnd ||
    (r.position / r.wordSize.bits + 1 == r.words.size &&
      r.word (r.position / r.wordSize.bits) >>> (r.position % r.wordSize.bits) == 0)

instance : BitSource Reader where
  readBits count := do
    let n ← checkCount maxRawBits count
    modifyGet fun r => r.take n
  reachedEnd := reachedEnd
  onlyZeroesLeft := onlyZeroesLeft

@[simp] theorem bitsRemaining_take (r : Reader) (n : Nat) :
    (r.take n).2.bitsRemaining = r.bitsRemaining - n := by
  simp only [take, bitsRemaining, capacity]
  omega

@[simp] theorem count_take (r : Reader) (n : Nat) :
    (r.take n).1.count = (min n r.bitsRemaining : Nat) := rfl

/-- A raw read of at most 64 bits takes them. -/
theorem run_readBits {n : Nat} (h : n ≤ 64) (r : Reader) :
    (BitSource.readBits (n : Int) : EStateM Error Reader Taken).run r =
      .ok (r.take n).1 (r.take n).2 := by
  have hn : checkCount maxRawBits n = .ok n := by
    rw [checkCount_eq_ok_iff, maxRawBits]
    omega
  simp only [BitSource.readBits, EStateM.run_bind, hn, run_liftM_ok]
  rfl

/-- Reading a field to its end takes at least one bit. -/
theorem bitsRemaining_readChunks_lt (c : Chunking) (payload : Nat) (value : Int)
    (hp : payload < c.width.bits) {r r' : Reader} {v : Int}
    (h : (BitSource.readChunks c payload value).run r = .ok (.value v) r') :
    r'.bitsRemaining < r.bitsRemaining := by
  induction hm : c.width.bits - payload using Nat.strongRecOn generalizing payload value r with
  | _ m ih =>
    have hc := c.length_pos
    have hw := c.width.bits_le
    rw [BitSource.readChunks, EStateM.run_bind, run_readBits (by omega)] at h
    dsimp only at h
    split at h
    · simp at h
    · next h1 =>
      rw [count_take] at h1
      split at h
      · -- the last chunk
        simp only [EStateM.run_pure, EStateM.Result.ok.injEq] at h
        obtain ⟨-, rfl⟩ := h
        rw [bitsRemaining_take]
        omega
      · rw [EStateM.run_bind, show (1 : Int) = (1 : Nat) from rfl, run_readBits (by omega)] at h
        dsimp only at h
        split at h
        · simp at h
        · split at h
          · -- no more chunks follow
            simp only [EStateM.run_pure, EStateM.Result.ok.injEq] at h
            obtain ⟨-, rfl⟩ := h
            rw [bitsRemaining_take, bitsRemaining_take]
            omega
          · have := ih _ (by omega) _ _ (by omega) h rfl
            rw [bitsRemaining_take, bitsRemaining_take] at this
            omega

end Reader
end BitPack
