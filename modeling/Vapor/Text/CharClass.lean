/-
Vapor/Text/CharClass.lean

The character classes that the reader of Vapor text rests on.  Below U+0080
they are the usual ASCII classes; above it they follow the tables of Unicode 14.

* `isLetter` starts an identifier, `isAlnum` goes on with it;
* `isDigit` makes up numbers; only those digits that have a `decimal?` value
  can be read as an integer afterwards;
* `isPrintable` decides what a quoted text shows as it is;
* `isSpace` is what may surround an integer.
-/
import Vapor.Text.Letters
import Vapor.Text.Numerals
import Vapor.Text.Printable

namespace Vapor.Text

/-- Letters of any script. -/
def isLetter (c : Char) : Bool :=
  if c.toNat < 128 then c.isAlpha else isWideLetter c.toNat

/-- The value of a decimal digit of any script. -/
def decimal? (c : Char) : Option Nat :=
  if c.toNat < 128 then
    if c.isDigit then some (c.toNat - '0'.toNat) else none
  else wideDecimal? c.toNat

/-- Digits of any script, decimal or not. -/
def isDigit (c : Char) : Bool :=
  if c.toNat < 128 then c.isDigit
  else (wideDecimal? c.toNat).isSome || otherDigits.contains c.toNat

/-- Letters, digits and all other characters with a numeric value. -/
def isAlnum (c : Char) : Bool :=
  isLetter c || isDigit c || otherNumerics.contains c.toNat

/-- Characters that are shown as they are: the space, and whatever is neither a
separator nor a control character nor unassigned. -/
def isPrintable (c : Char) : Bool :=
  if c.toNat < 128 then 32 <= c.toNat && c.toNat < 127 else isWidePrintable c.toNat

/-- White space beyond ASCII. -/
def wideSpaces : Ranges :=
  [(0x85, 0x85), (0xA0, 0xA0), (0x1680, 0x1680), (0x2000, 0x200A), (0x2028, 0x2029),
    (0x202F, 0x202F), (0x205F, 0x205F), (0x3000, 0x3000)]

/-- White space: the blank, the controls from tab to carriage return, and the
separators beyond ASCII. -/
def isSpace (c : Char) : Bool :=
  if c.toNat < 128 then c.toNat == 32 || (9 <= c.toNat && c.toNat <= 13)
  else wideSpaces.contains c.toNat

end Vapor.Text
