/-
# Decimal numbers and their nearest binary ones

A number written with a fraction or an exponent is kept exactly as a mantissa and a power of
ten.  Where it is used it counts as the nearest binary floating-point number with 53 bits
and exponents from -1074 to 971; of two nearest ones the even one is taken.
-/
namespace BitPack

/-- The number `mantissa * 10 ^ exponent`. -/
structure Decimal where
  /-- The digits of the number. -/
  mantissa : Int
  /-- The power of ten of the last digit. -/
  exponent : Int
deriving DecidableEq, Repr, Inhabited

namespace Decimal

/-- What matters of a binary floating-point number: its value when it is whole. -/
inductive Rounded where
  /-- The number is too large. -/
  | infinite
  /-- The number is whole. -/
  | whole (n : Int)
  /-- The number has a fractional part. -/
  | fractional
deriving DecidableEq, Repr

/-- The quotient rounded to the nearest whole number, a half to the even one. -/
def roundDiv (num den : Nat) : Nat :=
  let q := num / den
  let r := 2 * (num % den)
  if r < den ∨ r = den ∧ q % 2 = 0 then q else q + 1

/-- The quotient of two positive numbers, rounded to 53 bits. -/
def roundQuotient (num den : Nat) : Rounded :=
  let e : Int := (num.log2 : Int) - den.log2
  let e := if num <<< (-e).toNat < den <<< e.toNat then e - 1 else e
  let e := max (e - 52) (-1074)
  let m := roundDiv (num <<< (-e).toNat) (den <<< e.toNat)
  if 2 ^ 1024 ≤ m <<< e.toNat then .infinite
  else if m % 2 ^ (-e).toNat = 0 then .whole ((m <<< e.toNat) / 2 ^ (-e).toNat : Nat)
  else .fractional

/-- A number of decimal digits beyond which a number is infinite. -/
def hugeDigits : Int := 310

/-- A number of zeros after the point beyond which a number is zero. -/
def tinyDigits : Int := 330

/-- The nearest binary floating-point number. -/
def rounded (d : Decimal) : Rounded :=
  let m := d.mantissa.natAbs
  let magnitude := ((Nat.toDigits 10 m).length : Int) + d.exponent
  if m = 0 ∨ magnitude < -tinyDigits then .whole 0
  else if hugeDigits < magnitude then .infinite
  else
    match roundQuotient (m * 10 ^ d.exponent.toNat) (10 ^ (-d.exponent).toNat) with
    | .whole n => .whole (if d.mantissa < 0 then -n else n)
    | r => r

end Decimal
end BitPack
