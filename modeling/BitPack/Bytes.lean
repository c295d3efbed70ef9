/-
# Bytes

Words are laid out as bytes in the order of the host, which is taken to be a little-endian one: the
lowest byte of a word comes first.  On such a host a run of bits is packed into the same bytes
whatever the word size; on others it is not, and nothing is said about these.  This file turns
numbers, words and runs of bits into lists of bytes and back.
-/
import BitPack.Width
import BitPack.Bits

namespace BitPack

/-- A list of bytes. -/
abbrev Bytes := List UInt8

/-- The number of bytes that hold a number of bits. -/
def byteCount (bits : Nat) : Nat := (bits + 7) / 8

namespace Bytes

/-- The `k` low bytes of a number, lowest byte first. -/
def ofNat : Nat → Nat → Bytes
  | 0, _ => []
  | k + 1, x => UInt8.ofNat x :: ofNat k (x / 256)

/-- The number whose bytes, lowest first, are given. -/
def toNat : Bytes → Nat
  | [] => 0
  | b :: s => b.toNat + 256 * toNat s

@[simp] theorem length_ofNat (k x : Nat) : (ofNat k x).length = k := by
  induction k generalizing x with
  | zero => rfl
  | succ k ih => simp [ofNat, ih]

/-- Packing keeps the number modulo `256 ^ k`. -/
theorem toNat_ofNat (k x : Nat) : toNat (ofNat k x) = x % 256 ^ k := by
  induction k generalizing x with
  | zero => simp [ofNat, toNat, Nat.mod_one]
  | succ k ih =>
    rw [ofNat, toNat, ih, Nat.pow_succ, Nat.mul_comm (256 ^ k), Nat.mod_mul]
    simp [UInt8.toNat_ofNat']

/-- A list of bytes is recovered from its number and its length. -/
theorem ofNat_toNat (s : Bytes) : ofNat s.length (toNat s) = s := by
  induction s with
  | nil => rfl
  | cons b s ih =>
    have h : b.toNat < 256 := b.toNat_lt
    have h1 : (b.toNat + 256 * toNat s) / 256 = toNat s := by omega
    have h2 : UInt8.ofNat (b.toNat + 256 * toNat s) = b := by
      apply UInt8.toNat_inj.mp
      simp
    rw [List.length_cons, ofNat, toNat, h1, h2, ih]

/-- The bytes of a list of words on a little-endian host. -/
def ofWords (w : Width) (words : List Nat) : Bytes := words.flatMap (ofNat w.bytes)

/-- The words of a list of bytes on a little-endian host.  A last word that is cut short is
completed with zero bytes, which do not change its number. -/
def toWords (w : Width) (s : Bytes) : List Nat :=
  if s = [] then [] else toNat (s.take w.bytes) :: toWords w (s.drop w.bytes)
termination_by s.length
decreasing_by
  have := w.bytes_pos
  have : s.length ≠ 0 := by simpa using ‹¬s = []›
  simp only [List.length_drop]
  omega

/-- The bits of a list of bytes, lowest bit of each byte first. -/
def toBits (s : Bytes) : Bits := s.flatMap fun b => Bits.ofInt 8 b.toNat

/-- A run of bits packed into bytes; the last byte is completed with zeros. -/
def ofBits (s : Bits) : Bytes :=
  if s = [] then [] else UInt8.ofNat (Bits.toNat (s.take 8)) :: ofBits (s.drop 8)
termination_by s.length
decreasing_by
  have : s.length ≠ 0 := by simpa using ‹¬s = []›
  simp only [List.length_drop]
  omega

@[simp] theorem length_ofBits (s : Bits) : (ofBits s).length = byteCount s.length := by
  fun_induction ofBits s with
  | case1 => rfl
  | case2 s h ih =>
    have : s.length ≠ 0 := by simpa using h
    rw [List.length_cons, ih, List.length_drop, byteCount, byteCount]
    omega

end Bytes
end BitPack
