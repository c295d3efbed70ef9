/-
# Zigzag

Signed numbers are folded into unsigned ones so that small magnitudes of either sign become
small.  Plain zigzag alternates the signs number by number: 0, -1, 1, -2, 2, …  Block zigzag
with exponent `k` keeps the `k` low bits of the magnitude and alternates the signs of whole
blocks of `2 ^ k` numbers; with exponent 1 the order is 0, 1, -1, -2, 2, 3, -3, -4, …

The magnitude of a negative number is taken one lower, so that 0 and -1, 1 and -2, … share
theirs.
-/
import BitPack.Error

namespace BitPack.Zigzag

/-- The magnitude of a number; a negative one shares it with its complement. -/
def magnitude (v : Int) : Nat := if 0 ≤ v then v.toNat else (-v - 1).toNat

/-- Block zigzag: blocks of `2 ^ k` numbers of one sign alternate. -/
def fold (k : Nat) (v : Int) : Nat :=
  let m := magnitude v
  (2 * (m / 2 ^ k) + if 0 ≤ v then 0 else 1) * 2 ^ k + m % 2 ^ k

/-- The number at a place of the block zigzag order. -/
def unfold (k : Nat) (u : Nat) : Int :=
  let block := u / 2 ^ k
  let m := block / 2 * 2 ^ k + u % 2 ^ k
  if block % 2 = 1 then -1 - (m : Int) else m

/-- Plain zigzag in two's complement: the number doubled, with all bits inverted when it is
negative. -/
def interleave (v : BitVec 64) : BitVec 64 := (v <<< 1) ^^^ v.sshiftRight 63

/-- A number in the signed 64-bit range. -/
def checkSigned64 (v : Int) : Except Error Unit :=
  if -2 ^ 63 ≤ v ∧ v < 2 ^ 63 then .ok () else .error (.notSigned64 v)

/-- A number in the unsigned 64-bit range. -/
def checkUnsigned64 (u : Int) : Except Error Nat :=
  if 0 ≤ u ∧ u < 2 ^ 64 then .ok u.toNat else .error (.notUnsigned64 u)

/-- A block exponent. -/
def checkExponent (k : Int) : Except Error Nat :=
  if 0 ≤ k ∧ k < 64 then .ok k.toNat else .error (.blockExponent k)

/-- Plain zigzag of a signed 64-bit number. -/
def encode (v : Int) : Except Error Nat := do
  checkSigned64 v
  return (interleave (BitVec.ofInt 64 v)).toNat

/-- The signed number of a plain zigzag code. -/
def decode (u : Int) : Except Error Int := do
  let n ← checkUnsigned64 u
  return if n % 2 = 1 then -1 - (n / 2 : Nat) else (n / 2 : Nat)

/-- Block zigzag of a signed 64-bit number. -/
def encodeBlocks (v k : Int) : Except Error Nat := do
  checkSigned64 v
  let n ← checkExponent k
  return fold n v

/-- The signed number of a block zigzag code. -/
def decodeBlocks (u k : Int) : Except Error Int := do
  let m ← checkUnsigned64 u
  let n ← checkExponent k
  return unfold n m

end BitPack.Zigzag
