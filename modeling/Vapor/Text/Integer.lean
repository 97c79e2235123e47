/-
Vapor/Text/Integer.lean

Reading an integer from its text.  White space may surround the number, one
sign may precede it, its digits are decimal digits of any script, and single
underscores may stand between digits.  A number of more than 4300 digits is
refused, leading zeros included.

There are two ways to fail.  A misplaced underscore is noticed first, then
excess digits, then anything else that does not belong to a number.
-/
import Vapor.Text.Quoted

namespace Vapor.Text

/-- Why a text is no integer. -/
inductive IntegerError where
  /-- It does not have the form of an integer. -/
  | malformed (text : String)
  /-- It has more digits than are allowed. -/
  | tooLong (digits : Nat)
deriving DecidableEq, Repr

/-- The largest number of digits that is read. -/
def maxDigits : Nat := 4300

/-- The message shows at most 200 characters of the malformed text in quotes. -/
def IntegerError.message : IntegerError → String
  | .malformed text =>
    "invalid literal for int() with base 10: " ++ String.ofList ((quoted text).toList.take 200)
  | .tooLong digits =>
    s!"Exceeds the limit ({maxDigits} digits) for integer string conversion: " ++
      s!"value has {digits} digits; use sys.set_int_max_str_digits() to increase the limit"

/-- Do the underscores stand singly between other characters?  The flag says
whether an underscore may come next. -/
def underscoresFit (mayFollow : Bool) : List Char → Bool
  | [] => mayFollow
  | '_' :: cs => mayFollow && underscoresFit false cs
  | _ :: cs => underscoresFit true cs

/-- The value of a row of decimal digits, the most significant one first. -/
def ofDigits (digits : List Nat) : Nat :=
  digits.foldl (fun value d => 10 * value + d) 0

/-- Does the character belong to the digits of an integer? -/
def isDigitOrUnderscore (c : Char) : Bool :=
  (decimal? c).isSome || c == '_'

/-- Reads digits, with single underscores between them, up to the end of the
text; `text` is the whole text that a failure reports. -/
def readDigits (text : String) (cs : List Char) : Except IntegerError Nat :=
  let run := cs.takeWhile isDigitOrUnderscore
  let digits := run.filterMap decimal?
  if !underscoresFit false run then .error (.malformed text)
  else if maxDigits < digits.length then .error (.tooLong digits.length)
  else if (cs.dropWhile isDigitOrUnderscore).all isSpace then .ok (ofDigits digits)
  else .error (.malformed text)

/-- Reads an integer. -/
def readInteger (text : String) : Except IntegerError Int :=
  match text.toList.dropWhile isSpace with
  | '-' :: cs => (readDigits text cs).map fun n => -(n : Int)
  | '+' :: cs => (readDigits text cs).map fun n => (n : Int)
  | cs => (readDigits text cs).map fun n => (n : Int)

end Vapor.Text
