/-
# Integers in text

An integer may be surrounded by blanks and start with a sign; its digits may be of any
script and single underscores may stand between them.  It has at most `maxDigits` digits,
leading zeros included.
-/
import BitPack.Text.Blank
import BitPack.Text.Digit

namespace BitPack.Text.Numeral

/-- The largest number of digits of an integer in text. -/
def maxDigits : Nat := 4300

/-- The values of a run of digits with single underscores between them. -/
def digits? : List Char → Option (List Nat)
  | [] => none
  | [c] => (digitValue? c).map fun d => [d]
  | c :: '_' :: s => (digitValue? c).bind fun d => (digits? s).map (d :: ·)
  | c :: s => (digitValue? c).bind fun d => (digits? s).map (d :: ·)

/-- The number with the given decimal digits, highest first. -/
def ofDigits (ds : List Nat) : Nat := ds.foldl (fun n d => 10 * n + d) 0

/-- A number without a sign. -/
def toNat? (s : List Char) : Option Nat :=
  (digits? s).bind fun ds => if ds.length ≤ maxDigits then some (ofDigits ds) else none

/-- The integer that a text stands for. -/
def toInt? (s : List Char) : Option Int :=
  match trim s with
  | '-' :: t => (toNat? t).map fun n => -(n : Int)
  | '+' :: t => (toNat? t).map fun n => (n : Int)
  | t => (toNat? t).map fun n => (n : Int)

end BitPack.Text.Numeral
