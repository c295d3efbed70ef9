/-
# Integers of parameters as text

A parameter may give an integer as text.  The text is first brought into its shortest form:
blanks around it, a plus sign, a fraction of zeros, leading zeros and single underscores are
dropped.  What is left has to be an integer without leading zeros and of at most `maxDigits`
digits.  Only a text that starts with more digits as it stands is told to be too large; all
other texts that are refused are told not to be integers.

Leading zeros are dropped together with any underscores among them, and the text may go on
with a minus sign behind them, so `0__5` stands for 5 and `0-5` for -5.
-/
import BitPack.FieldError
import BitPack.Text.Blank
import BitPack.Text.Numeral

namespace BitPack.Params.IntegerText

/-- A text without a plus sign in front, which must not be followed by a minus sign. -/
def dropPlus? : List Char → Option (List Char)
  | '+' :: '-' :: _ => none
  | '+' :: s => some s
  | s => some s

/-- A text without a fraction of zeros.  The fraction has at least one digit. -/
def dropFraction (s : List Char) : List Char :=
  let digits := (s.dropWhile (· ≠ '.')).tail
  if digits ≠ [] ∧ digits.all (· == '0') then s.takeWhile (· ≠ '.') else s

/-- A text without its leading zeros and the underscores among them, from its first other
digit or minus sign on.  Of zeros and underscores alone the last character is left. -/
def dropZeros? (s : List Char) : Option (List Char) :=
  match s with
  | '0' :: t =>
    match t.dropWhile (fun c => c == '0' || c == '_') with
    | [] => some [s.getLast?.getD '0']
    | c :: u => if c.isDigit ∨ c = '-' then some (c :: u) else none
  | c :: t => if c.isDigit ∨ c = '-' then some (c :: t) else none
  | [] => none

/-- A text without its underscores, each of which has to stand between two other
characters. -/
def dropUnderscores? : List Char → Option (List Char)
  | [] => some []
  | '_' :: _ => none
  | [_, '_'] => none
  | c :: '_' :: s => (dropUnderscores? s).map (c :: ·)
  | c :: s => (dropUnderscores? s).map (c :: ·)

/-- The shortest form of a text. -/
def shorten? (s : List Char) : Option (List Char) := do
  match dropFraction (← dropPlus? (Text.trim s)) with
  | '-' :: t => dropUnderscores? ('-' :: (← dropZeros? t))
  | t => dropUnderscores? (← dropZeros? t)

/-- The sign of a text and what follows it. -/
def splitSign : List Char → Int × List Char
  | '-' :: s => (-1, s)
  | s => (1, s)

/-- The integer of a text in its shortest form, which has at most `maxDigits` digits. -/
def ofShort? (s : List Char) : Option Int :=
  let (sign, t) := splitSign s
  if t ≠ [] ∧ t.all Char.isDigit ∧ t.length ≤ Text.Numeral.maxDigits ∧
      (t.head? ≠ some '0' ∨ t = ['0']) then
    some (sign * Nat.ofDigitChars 10 t 0)
  else none

/-- Whether a text as it stands starts with the digits of too large a number. -/
def isOversized (s : List Char) : Bool :=
  let digits := (splitSign s).2.takeWhile Char.isDigit
  digits.head? ≠ some '0' && Text.Numeral.maxDigits < digits.length

/-- The integer that a text stands for. -/
def parse (s : String) : Except FieldFault Int :=
  if isOversized s.toList then .error .oversizedInteger
  else match (shorten? s.toList).bind ofShort? with
    | some n => .ok n
    | none => .error .unreadableInteger

end BitPack.Params.IntegerText
