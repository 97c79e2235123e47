/-
Vapor/Text/Quoted.lean

Texts in quotes, as messages and listings show them.  The text stands between
single quotes, or between double quotes if it holds a single quote and no
double one.  The backslash and the quote in use are escaped by a backslash,
line feed, carriage return and tab by a letter, and any other character that is
not printable by its code in hexadecimal: two digits after `\x`, four after
`\u`, or eight after `\U`, whichever is the first to fit.
-/
import Vapor.Text.CharClass

namespace Vapor.Text

/-- The number in lower-case hexadecimal, filled up with zeros to `width` digits. -/
def hex (width n : Nat) : List Char :=
  let digits := Nat.toDigits 16 n
  List.replicate (width - digits.length) '0' ++ digits

/-- The quote a text is put in. -/
def quoteFor (text : List Char) : Char :=
  if '\'' ∈ text ∧ '"' ∉ text then '"' else '\''

/-- One character of a text between the given quotes. -/
def quotedChar (quote c : Char) : List Char :=
  if c = quote ∨ c = '\\' then ['\\', c]
  else if c = '\n' then ['\\', 'n']
  else if c = '\r' then ['\\', 'r']
  else if c = '\t' then ['\\', 't']
  else if isPrintable c then [c]
  else if c.toNat < 0x100 then '\\' :: 'x' :: hex 2 c.toNat
  else if c.toNat < 0x10000 then '\\' :: 'u' :: hex 4 c.toNat
  else '\\' :: 'U' :: hex 8 c.toNat

/-- The text in quotes. -/
def quoted (text : String) : String :=
  let quote := quoteFor text.toList
  String.ofList (quote :: (text.toList.flatMap (quotedChar quote) ++ [quote]))

end Vapor.Text
