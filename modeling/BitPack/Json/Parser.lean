/-
# Reading JSON

The reader takes one value from a text, with nothing but blanks around it.  Beyond the JSON
grammar it accepts the tokens `NaN`, `Infinity` and `-Infinity`.  Escapes that do not stand
for a character, such as half of a surrogate pair, are refused, and so are values nested too
deep and numbers with too many digits in front of the point.
-/
import BitPack.Json

namespace BitPack.Json

/-- How large a value may be. -/
structure Limits where
  /-- The greatest number of arrays and objects inside each other, empty ones not counted. -/
  depth : Nat
  /-- The greatest number of digits in front of the point of a number. -/
  digits : Nat

/-- The text without the blanks in front of it. -/
def skipBlanks (s : List Char) : List Char :=
  s.dropWhile fun c => c == ' ' || c == '\t' || c == '\n' || c == '\r'

/-- The number with the given ASCII digits. -/
def ofDigits (ds : List Char) : Nat := Nat.ofDigitChars 10 ds 0

/-- Splits a text behind its leading ASCII digits. -/
def spanDigits (s : List Char) : List Char × List Char :=
  (s.takeWhile Char.isDigit, s.dropWhile Char.isDigit)

/-- The digits of a fraction, none when there is no point. -/
def fraction : List Char → Option (List Char × List Char)
  | '.' :: s =>
    match spanDigits s with
    | ([], _) => none
    | r => some r
  | s => some ([], s)

/-- The value of an exponent, none when there is none. -/
def exponent : List Char → Option (Option Int × List Char)
  | 'e' :: s | 'E' :: s =>
    let (negative, t) :=
      match s with
      | '-' :: t => (true, t)
      | '+' :: t => (false, t)
      | t => (false, t)
    match spanDigits t with
    | ([], _) => none
    | (ds, u) => some (some (if negative then -(ofDigits ds : Int) else ofDigits ds), u)
  | s => some (none, s)

/-- Takes a number without its sign, which is given apart. -/
def unsigned (limits : Limits) (sign : Int) (s : List Char) : Option (Json × List Char) := do
  let (ds, s) := spanDigits s
  if ds = [] ∨ (ds.head? = some '0' ∧ 1 < ds.length) ∨ limits.digits < ds.length then none
  else
    let (fs, t) ← fraction s
    let (e, u) ← exponent t
    if fs = [] ∧ e = none then some (int (sign * ofDigits ds), u)
    else some (decimal ⟨sign * ofDigits (ds ++ fs), e.getD 0 - fs.length⟩, u)

/-- The token of an infinite number. -/
def infinity? : List Char → Option (List Char)
  | 'I' :: 'n' :: 'f' :: 'i' :: 'n' :: 'i' :: 't' :: 'y' :: s => some s
  | _ => none

/-- Takes a number. -/
def number (limits : Limits) (s : List Char) : Option (Json × List Char) :=
  match s with
  | 'N' :: 'a' :: 'N' :: t => some (nonFinite, t)
  | '-' :: t =>
    match infinity? t with
    | some u => some (nonFinite, u)
    | none => unsigned limits (-1) t
  | t =>
    match infinity? t with
    | some u => some (nonFinite, u)
    | none => unsigned limits 1 t

/-- The number of four hexadecimal digits. -/
def unit? (a b c d : Char) : Option Nat := do
  let p ← Text.hexValue? a
  let q ← Text.hexValue? b
  let r ← Text.hexValue? c
  let s ← Text.hexValue? d
  return 4096 * p + 256 * q + 16 * r + s

/-- The character of an escape of one letter. -/
def shortEscape? : Char → Option Char
  | '"' => some '"'
  | '\\' => some '\\'
  | '/' => some '/'
  | 'b' => some '\x08'
  | 'f' => some '\x0c'
  | 'n' => some '\n'
  | 'r' => some '\r'
  | 't' => some '\t'
  | _ => none

/-- Takes the characters of a text up to its closing quote. -/
def chars (s : List Char) : Option (List Char × List Char) :=
  match s with
  | [] => none
  | '"' :: t => some ([], t)
  | '\\' :: 'u' :: a :: b :: c :: d :: t =>
    match unit? a b c d with
    | none => none
    | some u =>
      if 0xd800 ≤ u ∧ u < 0xdc00 then
        match t with
        | '\\' :: 'u' :: e :: f :: g :: h :: t =>
          match unit? e f g h with
          | none => none
          | some v =>
            if 0xdc00 ≤ v ∧ v < 0xe000 then
              (chars t).map fun r =>
                (Char.ofNat (0x10000 + (u - 0xd800) * 0x400 + (v - 0xdc00)) :: r.1, r.2)
            else none
        | _ => none
      else if 0xdc00 ≤ u ∧ u < 0xe000 then none
      else (chars t).map fun r => (Char.ofNat u :: r.1, r.2)
  | '\\' :: e :: t =>
    match shortEscape? e with
    | none => none
    | some c => (chars t).map fun r => (c :: r.1, r.2)
  | c :: t => if c.toNat < 0x20 then none else (chars t).map fun r => (c :: r.1, r.2)

mutual

/-- Takes a value inside `depth` arrays and objects.  The fuel bounds the number of nested
calls. -/
def value (limits : Limits) : Nat → Nat → List Char → Option (Json × List Char)
  | 0, _, _ => none
  | fuel + 1, depth, s =>
    match skipBlanks s with
    | 'n' :: 'u' :: 'l' :: 'l' :: t => some (null, t)
    | 't' :: 'r' :: 'u' :: 'e' :: t => some (bool true, t)
    | 'f' :: 'a' :: 'l' :: 's' :: 'e' :: t => some (bool false, t)
    | '"' :: t => (chars t).map fun r => (text (String.ofList r.1), r.2)
    | '[' :: t =>
      match skipBlanks t with
      | ']' :: u => some (array [], u)
      | u =>
        if limits.depth ≤ depth then none
        else (items limits fuel (depth + 1) u).map fun r => (array r.1, r.2)
    | '\x7b' :: t =>
      match skipBlanks t with
      | '\x7d' :: u => some (object [], u)
      | u =>
        if limits.depth ≤ depth then none
        else (members limits fuel (depth + 1) u).map fun r => (object r.1, r.2)
    | t => number limits t

/-- Takes the items of an array up to its closing bracket. -/
def items (limits : Limits) : Nat → Nat → List Char → Option (List Json × List Char)
  | 0, _, _ => none
  | fuel + 1, depth, s =>
    match value limits fuel depth s with
    | none => none
    | some (j, t) =>
      match skipBlanks t with
      | ',' :: u => (items limits fuel depth u).map fun r => (j :: r.1, r.2)
      | ']' :: u => some ([j], u)
      | _ => none

/-- Takes the members of an object up to its closing bracket. -/
def members (limits : Limits) :
    Nat → Nat → List Char → Option (List (String × Json) × List Char)
  | 0, _, _ => none
  | fuel + 1, depth, s =>
    match skipBlanks s with
    | '"' :: t =>
      match chars t with
      | none => none
      | some (k, u) =>
        match skipBlanks u with
        | ':' :: v =>
          match value limits fuel depth v with
          | none => none
          | some (j, w) =>
            match skipBlanks w with
            | ',' :: x =>
              (members limits fuel depth x).map fun r => ((String.ofList k, j) :: r.1, r.2)
            | '\x7d' :: x => some ([(String.ofList k, j)], x)
            | _ => none
        | _ => none
    | _ => none

end

/-- The value of a text.  Every two nested calls take a character, which gives the fuel. -/
def parse? (limits : Limits) (s : String) : Option Json :=
  match value limits (2 * s.length + 2) 0 s.toList with
  | some (j, t) => if skipBlanks t = [] then some j else none
  | none => none

end BitPack.Json
