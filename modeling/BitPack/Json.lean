/-
# JSON values

A JSON value keeps the members of its objects in the order in which they are written,
repeated ones included, and tells whole numbers from those written with a fraction or an
exponent.  The printer writes no blanks.
-/
import BitPack.Decimal
import BitPack.Text.HexDigit

namespace BitPack

/-- A JSON value. -/
inductive Json where
  | null
  | bool (b : Bool)
  /-- A number without fraction and exponent. -/
  | int (n : Int)
  /-- A number with a fraction or an exponent. -/
  | decimal (d : Decimal)
  /-- One of the tokens for an infinite or undefined number. -/
  | nonFinite
  | text (s : String)
  | array (items : List Json)
  /-- The members of an object in the order written. -/
  | object (members : List (String × Json))
deriving Inhabited, Repr

namespace Json

/-- The value of the last member of a name. -/
def lookup (name : String) (members : List (String × Json)) : Option Json :=
  (members.reverse.find? fun m => m.1 == name).map (·.2)

/-- The member of an object. -/
def get? (j : Json) (name : String) : Option Json :=
  match j with
  | object members => lookup name members
  | _ => none

/-- A character inside a JSON text. -/
def escapeChar (c : Char) : List Char :=
  if c = '"' ∨ c = '\\' then ['\\', c]
  else if c.toNat < 0x20 then '\\' :: 'u' :: Text.hexDigits 4 c.toNat
  else [c]

/-- A text between quotes. -/
def renderText (s : String) : List Char := '"' :: s.toList.flatMap escapeChar ++ ['"']

/-- A decimal number as a mantissa and a power of ten. -/
def renderDecimal (d : Decimal) : List Char :=
  (toString d.mantissa).toList ++ 'e' :: (toString d.exponent).toList

mutual

/-- The characters of a JSON value. -/
def renderChars : Json → List Char
  | null => ['n', 'u', 'l', 'l']
  | bool true => ['t', 'r', 'u', 'e']
  | bool false => ['f', 'a', 'l', 's', 'e']
  | int n => (toString n).toList
  | decimal d => renderDecimal d
  | nonFinite => ['N', 'a', 'N']
  | text s => renderText s
  | array [] => ['[', ']']
  | array (j :: js) => '[' :: renderChars j ++ renderItems js ++ [']']
  | object [] => ['\x7b', '\x7d']
  | object ((k, j) :: ms) =>
    '\x7b' :: renderText k ++ ':' :: renderChars j ++ renderMembers ms ++ ['\x7d']

/-- The characters of the items of an array after the first one. -/
def renderItems : List Json → List Char
  | [] => []
  | j :: js => ',' :: renderChars j ++ renderItems js

/-- The characters of the members of an object after the first one. -/
def renderMembers : List (String × Json) → List Char
  | [] => []
  | (k, j) :: ms => ',' :: renderText k ++ ':' :: renderChars j ++ renderMembers ms

end

/-- The text of a JSON value. -/
def render (j : Json) : String := String.ofList j.renderChars

end Json
end BitPack
