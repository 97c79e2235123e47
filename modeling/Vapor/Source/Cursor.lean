/-
Vapor/Source/Cursor.lean

A place in a list of tokens, with what lies behind it and ahead of it.  Reading
goes forward one token at a time and never past the end of the text.  A list
that lacks the token for its end is read as if its last token went on for ever,
so there is always a current token.
-/
import Vapor.Source.Token

namespace Vapor

/-- A place in a list of tokens. -/
structure Cursor where
  /-- The tokens that have been read, the latest one first. -/
  behind : List Token
  /-- The token to be read next. -/
  current : Token
  /-- The tokens after the current one. -/
  ahead : List Token
deriving DecidableEq, Repr

namespace Cursor

/-- The beginning of a list of tokens; an empty list has no current token. -/
def ofTokens? : List Token → Option Cursor
  | [] => none
  | t :: ts => some ⟨[], t, ts⟩

/-- Why there is no cursor on an empty list. -/
def emptyMessage : String :=
  "TokenStream requires at least one token (EOF)"

/-- How many tokens have been read. -/
def index (s : Cursor) : Nat :=
  s.behind.length

/-- The last token of the whole list. -/
def last (s : Cursor) : Token :=
  s.ahead.getLast?.getD s.current

/-- The first token of the whole list. -/
def first (s : Cursor) : Token :=
  s.behind.getLast?.getD s.current

/-- The token `n` places after the current one, or the last one. -/
def peek (s : Cursor) : Nat → Token
  | 0 => s.current
  | n + 1 => s.ahead[n]?.getD s.last

/-- The token `n` places before the current one, or the first one. -/
def back (s : Cursor) : Nat → Token
  | 0 => s.current
  | n + 1 => s.behind[n]?.getD s.first

/-- Is the current token the end of the text? -/
def atEnd (s : Cursor) : Bool :=
  s.current.kind == .eof

/-- Is the current token of one of the kinds? -/
def isAny (s : Cursor) (kinds : List Token.Kind) : Bool :=
  kinds.contains s.current.kind

/-- Does a new item begin here, or the text end? -/
def atItem (s : Cursor) : Bool :=
  s.atEnd || s.current.kind.opensItem

/-- One token further, but never past the end of the text. -/
def advance (s : Cursor) : Cursor :=
  if s.atEnd then s
  else
    match s.ahead with
    | [] => { s with behind := s.current :: s.behind }
    | t :: ts => ⟨s.current :: s.behind, t, ts⟩

end Cursor

end Vapor
