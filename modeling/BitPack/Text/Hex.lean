/-
# Bytes in hexadecimal

Bytes are written as two lower-case hexadecimal digits each.  Reading accepts either case
and ASCII blanks between two bytes; a text that cannot be read is reported by the offset of
its first character that is out of place.
-/
import BitPack.Bytes
import BitPack.Text.HexDigit

namespace BitPack.Text.Hex

/-- The two digits of a byte. -/
def ofByte (b : UInt8) : List Char := hexDigits 2 b.toNat

/-- Bytes in hexadecimal. -/
def render (s : Bytes) : String := String.ofList (s.flatMap ofByte)

/-- The ASCII blanks that may stand between two bytes. -/
def isGap (c : Char) : Bool := c == ' ' || (9 ≤ c.toNat && c.toNat ≤ 13)

/-- Reads ASCII text whose first character is at offset `start`; fails with an offset. -/
def scan (start : Nat) : List Char → Except Nat Bytes
  | [] => .ok []
  | [c] => if isGap c then .ok [] else
      match hexValue? c with
      | none => .error start
      | some _ => .error (start + 1)
  | c :: d :: s =>
    if isGap c then scan (start + 1) (d :: s)
    else match hexValue? c, hexValue? d with
      | none, _ => .error start
      | some _, none => .error (start + 1)
      | some x, some y => (scan (start + 2) s).map (UInt8.ofNat (16 * x + y) :: ·)

/-- The bytes that a text stands for, or the offset of the first character out of place.
A character beyond ASCII is out of place wherever it stands. -/
def parse (s : String) : Except Nat Bytes :=
  match s.toList.findIdx? (127 < ·.toNat) with
  | some i => .error i
  | none => scan 0 s.toList

end BitPack.Text.Hex
