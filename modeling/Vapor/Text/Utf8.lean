/-
Vapor/Text/Utf8.lean

Reading UTF-8.  A character takes one to four bytes; the first byte tells how
many, and together with the range of the second byte it excludes overlong
forms, surrogates and codes that are too large.  At the first fault reading
stops, and the fault covers the bytes of the character that were good so far,
or the first byte if it begins no character.

`Text.unifyLineEnds` makes every line end a single line feed.
-/
import Vapor.Text.Quoted

namespace Vapor.Text

/-- What is wrong with some bytes. -/
inductive Utf8Fault where
  | startByte
  | continuationByte
  | endOfData
deriving DecidableEq, Repr

/-- The wording of a fault. -/
def Utf8Fault.text : Utf8Fault → String
  | startByte => "invalid start byte"
  | continuationByte => "invalid continuation byte"
  | endOfData => "unexpected end of data"

/-- Why bytes are no text. -/
structure Utf8Error where
  fault : Utf8Fault
  /-- The position of the first byte of the character at fault. -/
  start : Nat
  /-- The first byte of the character at fault. -/
  first : UInt8
  /-- The number of bytes at fault. -/
  size : Nat
deriving DecidableEq, Repr

/-- The message for the user. -/
def Utf8Error.message (e : Utf8Error) : String :=
  let place :=
    if e.size = 1 then
      s!"byte 0x{String.ofList (hex 2 e.first.toNat)} in position {e.start}"
    else
      s!"bytes in position {e.start}-{e.start + e.size - 1}"
  s!"'utf-8' codec can't decode {place}: {e.fault.text}"

/-- A character of which some bytes have been read. -/
structure Utf8Partial where
  start : Nat
  first : UInt8
  /-- The number of bytes read. -/
  size : Nat
  /-- The number of bytes missing. -/
  missing : Nat
  /-- The least and the greatest byte that may come next. -/
  lo : UInt8
  hi : UInt8
  /-- The bits read so far. -/
  code : Nat
deriving DecidableEq, Repr

namespace Utf8Partial

/-- The character that begins with a byte of no less than 0x80. -/
def begin? (start : Nat) (b : UInt8) : Option Utf8Partial :=
  if b < 0xC2 then none
  else if b < 0xE0 then some ⟨start, b, 1, 1, 0x80, 0xBF, b.toNat - 0xC0⟩
  else if b < 0xF0 then
    some ⟨start, b, 1, 2, if b = 0xE0 then 0xA0 else 0x80, if b = 0xED then 0x9F else 0xBF,
      b.toNat - 0xE0⟩
  else if b < 0xF5 then
    some ⟨start, b, 1, 3, if b = 0xF0 then 0x90 else 0x80, if b = 0xF4 then 0x8F else 0xBF,
      b.toNat - 0xF0⟩
  else none

/-- May the byte come next? -/
def admits (p : Utf8Partial) (b : UInt8) : Bool :=
  p.lo <= b && b <= p.hi

/-- The character with one more byte. -/
def push (p : Utf8Partial) (b : UInt8) : Utf8Partial :=
  { p with
    size := p.size + 1, missing := p.missing - 1, lo := 0x80, hi := 0xBF
    code := 64 * p.code + (b.toNat - 0x80) }

/-- The fault of the bytes read so far. -/
def error (p : Utf8Partial) (fault : Utf8Fault) : Utf8Error :=
  ⟨fault, p.start, p.first, p.size⟩

end Utf8Partial

/-- The characters of the bytes from a position on, `partly` being a character
of which the first bytes have been read before. -/
def decodeFrom (position : Nat) (partly : Option Utf8Partial) :
    List UInt8 → Except Utf8Error (List Char)
  | [] =>
    match partly with
    | none => .ok []
    | some p => .error (p.error .endOfData)
  | b :: rest =>
    match partly with
    | some p =>
      if !p.admits b then .error (p.error .continuationByte)
      else if p.missing = 1 then
        (decodeFrom (position + 1) none rest).map (Char.ofNat (p.push b).code :: ·)
      else decodeFrom (position + 1) (some (p.push b)) rest
    | none =>
      if b < 0x80 then (decodeFrom (position + 1) none rest).map (Char.ofNat b.toNat :: ·)
      else
        match Utf8Partial.begin? position b with
        | none => .error ⟨.startByte, position, b, 1⟩
        | some p => decodeFrom (position + 1) (some p) rest

/-- The text of some bytes. -/
def decodeUtf8 (bytes : List UInt8) : Except Utf8Error String :=
  (decodeFrom 0 none bytes).map String.ofList

/-- Line feeds for carriage returns, with or without a line feed behind them. -/
def unifyLineEnds : List Char → List Char
  | [] => []
  | '\r' :: '\n' :: rest => '\n' :: unifyLineEnds rest
  | '\r' :: rest => '\n' :: unifyLineEnds rest
  | c :: rest => c :: unifyLineEnds rest

end Vapor.Text
