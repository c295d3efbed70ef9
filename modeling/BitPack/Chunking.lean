/-
# Cutting a field into chunks

A number of `width` bits is written in chunks of `length` payload bits, lowest chunk first.
Every chunk is followed by a signal bit that says whether more chunks follow.  The last
chunk is cut to the bits that are left of the width and has no signal bit, so a field never
takes more than its width and one signal bit for each full chunk.

With chunks of 4 bits, 255 is written as `1111 1 1111 0`, and as `1111 1 1111` when the
width is 8.
-/
import BitPack.Error

namespace BitPack

/-- How a field is cut: the width of its numbers and the payload bits of a chunk. -/
structure Chunking where
  /-- The width of the numbers. -/
  width : Width
  /-- The payload bits of a chunk. -/
  length : Nat
  /-- A chunk has at least one payload bit. -/
  length_pos : 0 < length
deriving Repr

/-- A run of bits handed to a stream in one request: the `count` low bits of a number. -/
structure Piece where
  /-- The number whose low bits are meant. -/
  value : Nat
  /-- The number of bits. -/
  count : Nat
deriving DecidableEq, Repr

namespace Chunking

/-- The chunking with the given numbers, which are checked: first the width, then the length
of a chunk. -/
def ofInts (length width : Int) : Except Error Chunking :=
  match Width.ofBits? width with
  | none => .error (.fieldWidth width)
  | some w =>
    if h : 1 ≤ length then .ok ⟨w, length.toNat, by omega⟩
    else .error (.chunkLength length)

/-- The pieces in which a number is written when `left` bits of the width are left: payload
and signal bits in turn. -/
def piecesFrom (c : Chunking) (left value : Nat) : List Piece :=
  if left ≤ c.length then [⟨value, left⟩]
  else
    let rest := value >>> c.length
    if rest = 0 then [⟨value, c.length⟩, ⟨0, 1⟩]
    else ⟨value, c.length⟩ :: ⟨1, 1⟩ :: c.piecesFrom (left - c.length) rest
termination_by left
decreasing_by
  have := c.length_pos
  omega

/-- The pieces in which a number is written. -/
def pieces (c : Chunking) (value : Nat) : List Piece := c.piecesFrom c.width.bits value

/-- The number of bits a number takes when `left` bits of the width are left. -/
def sizeFrom (c : Chunking) (left value : Nat) : Nat :=
  if left ≤ c.length then left
  else
    let rest := value >>> c.length
    if rest = 0 then c.length + 1
    else c.length + 1 + c.sizeFrom (left - c.length) rest
termination_by left
decreasing_by
  have := c.length_pos
  omega

/-- The number of bits a number takes, signal bits included. -/
def size (c : Chunking) (value : Nat) : Nat := c.sizeFrom c.width.bits value

/-- The greatest number of bits a number takes: a signal bit follows each chunk that ends
before the width does. -/
def maxSize (c : Chunking) : Nat := c.width.bits + (c.width.bits - 1) / c.length

theorem ofInts_eq_ok_iff {length width : Int} {c : Chunking} :
    ofInts length width = .ok c ↔ width = c.width.bits ∧ length = c.length := by
  unfold ofInts
  split
  · next h =>
    simp only [reduceCtorEq, false_iff, not_and]
    rintro rfl
    simp at h
  · next w h =>
    rw [Width.ofBits?_eq_some_iff] at h
    subst h
    have := c.length_pos
    split
    · rw [Except.ok.injEq]
      constructor
      · rintro rfl
        simp only [true_and]
        omega
      · rintro ⟨h1, h2⟩
        have hw : w = c.width := Width.bits_injective (by omega)
        have hl : length.toNat = c.length := by omega
        cases c
        simp_all
    · simp only [reduceCtorEq, false_iff, not_and]
      omega

@[simp] theorem ofInts_self (c : Chunking) : ofInts c.length c.width.bits = .ok c :=
  ofInts_eq_ok_iff.mpr ⟨rfl, rfl⟩

end Chunking

/-- A number that fits an unsigned field of the given number of bits. -/
def checkUnsigned (value width : Int) : Except Error Nat :=
  if value < 0 then .error (.negativeValue value)
  else if width < 0 then .error .negativeShift
  else if value >>> width.toNat ≠ 0 then .error (.valueTooWide value width)
  else .ok value.toNat

/-- The least and greatest numbers of a signed field of the given number of bits. -/
def signedRange (bits : Nat) : Int × Int := (-2 ^ (bits - 1), 2 ^ (bits - 1) - 1)

/-- A number that fits a signed field of the given number of bits. -/
def checkSigned (value width : Int) : Except Error Unit :=
  if width < 1 then .error .negativeShift
  else
    let range := signedRange width.toNat
    if range.1 ≤ value ∧ value ≤ range.2 then .ok ()
    else .error (.outOfSignedRange value width range.1 range.2)

/-- A zigzag exponent below the width of a field. -/
def checkZigzagExponent (exponent width : Int) : Except Error Nat :=
  if 0 ≤ exponent ∧ exponent < width then .ok exponent.toNat
  else .error (.zigzagExponent (width - 1) exponent)

theorem checkZigzagExponent_of_lt {k w : Nat} (h : k < w) :
    checkZigzagExponent k w = .ok k := by
  unfold checkZigzagExponent
  rw [if_pos (by omega), Int.toNat_natCast]

end BitPack
