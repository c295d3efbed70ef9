/-
# Quoted text

Text inside a message is put between quotes: single ones, or double ones when the text has
a single quote and no double one.  A backslash and the quote in use are escaped with a
backslash, the tab and the line ends have their letters, and any other character that is
not printable is written with its code in hexadecimal.
-/
import BitPack.Text.HexDigit
import BitPack.Text.Printable

namespace BitPack.Text

/-- A character as it stands between quotes. -/
def escape (quote c : Char) : List Char :=
  if c = quote ∨ c = '\\' then ['\\', c]
  else if c = '\t' then ['\\', 't']
  else if c = '\n' then ['\\', 'n']
  else if c = '\r' then ['\\', 'r']
  else if isPrintable c then [c]
  else if c.toNat < 0x100 then '\\' :: 'x' :: hexDigits 2 c.toNat
  else if c.toNat < 0x10000 then '\\' :: 'u' :: hexDigits 4 c.toNat
  else '\\' :: 'U' :: hexDigits 8 c.toNat

/-- The quote that stands around a text. -/
def quoteOf (s : List Char) : Char :=
  if '\'' ∈ s ∧ '"' ∉ s then '"' else '\''

/-- A text between quotes. -/
def quoted (s : String) : String :=
  let q := quoteOf s.toList
  String.ofList (q :: s.toList.flatMap (escape q) ++ [q])

end BitPack.Text
