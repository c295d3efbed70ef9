/-
# The library in use

The library that the program uses takes more for an integer or a truth value than these
themselves, as long as no information is lost: a whole number written with a fraction, a number as
text, some words.  Its JSON has no blanks, and it reads JSON texts up to `textLimits`.
-/
import BitPack.Params.Fields
import BitPack.Json.Parser
import BitPack.Params.IntegerText

namespace BitPack

namespace FieldLibrary

/-- How large a JSON text of parameters may be. -/
def textLimits : Json.Limits := ⟨200, Text.Numeral.maxDigits⟩

/-- The bound of numbers that are taken as machine words. -/
def wordBound : Nat := 2 ^ 63

/-- A number in the signed range of a machine word. -/
def fitsWord (n : Int) : Bool := -(wordBound : Int) ≤ n && n < wordBound

/-- A value that stands for an integer. -/
def readInteger : Json → Except FieldFault Int
  | .int n => .ok n
  | .bool b => .ok b.toNat
  | .text s => Params.IntegerText.parse s
  | .nonFinite => .error .notFinite
  | .decimal d =>
    match d.rounded with
    | .infinite => .error .notFinite
    | .fractional => .error .fractionalInteger
    | .whole n => if n.natAbs < wordBound then .ok n else .error .oversizedInteger
  | .null | .array _ | .object _ => .error .notAnInteger

/-- A number that stands for one of the integers listed. -/
def readChoice (choices : List Int) : Json → Except FieldFault Int
  | .int n => if n ∈ choices ∨ fitsWord n then .ok n else .error .oversizedInteger
  | .decimal d =>
    match d.rounded with
    | .whole n => .ok n
    | _ => .error (.notAChoice choices)
  | _ => .error (.notAChoice choices)

/-- The texts that stand for true. -/
def trueTexts : List String := ["1", "t", "true", "y", "yes", "on"]

/-- The texts that stand for false. -/
def falseTexts : List String := ["0", "f", "false", "n", "no", "off"]

/-- A number that stands for a truth value. -/
def booleanOfNumber (n : Int) : Except FieldFault Bool :=
  if n = 0 then .ok false
  else if n = 1 then .ok true
  else .error .unreadableBoolean

/-- A value that stands for a truth value. -/
def readBoolean : Json → Except FieldFault Bool
  | .bool b => .ok b
  | .int n => if fitsWord n then booleanOfNumber n else .error .notABoolean
  | .decimal d =>
    match d.rounded with
    | .whole n => if n.natAbs < wordBound then booleanOfNumber n else .error .notABoolean
    | _ => .error .notABoolean
  | .text s =>
    if s.toLower ∈ trueTexts then .ok true
    else if s.toLower ∈ falseTexts then .ok false
    else .error .unreadableBoolean
  | .null | .nonFinite | .array _ | .object _ => .error .notABoolean

/-- The library in use. -/
def inUse : FieldLibrary where
  integer c j := do
    let n ← match c with
      | .oneOf choices => readChoice choices j
      | .between _ _ => readInteger j
    c.check n
  boolean := readBoolean
  print := Json.render
  parse := Json.parse? textLimits

end FieldLibrary

namespace Params

/-- The parameters with the given fields. -/
def ofFields (members : List (String × Json)) : Except Error Params :=
  FieldLibrary.inUse.paramsOfFields members

/-- The parameters of a JSON text. -/
def ofText (s : String) : Except Error Params := FieldLibrary.inUse.paramsOfText s

/-- Parameters as JSON text. -/
def toText (p : Params) : String := FieldLibrary.inUse.paramsText p

end Params
end BitPack
