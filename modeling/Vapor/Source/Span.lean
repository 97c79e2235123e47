/-
Vapor/Source/Span.lean

Places in a source text.  A position names the text by a path and counts
characters in three ways: from the beginning of the text, in lines, and within
the line.  Lines and columns count from one, offsets from zero.  A span runs
from its first position up to, not including, its last one.
-/

namespace Vapor

/-- A position in a source text. -/
structure Pos where
  /-- What the text is called in messages. -/
  path : String
  /-- The number of characters before the position. -/
  offset : Nat
  /-- The number of the line, from one. -/
  line : Nat
  /-- The number of the character within its line, from one. -/
  column : Nat
deriving DecidableEq, Repr

/-- Where every text begins. -/
def Pos.first (path : String) : Pos :=
  ⟨path, 0, 1, 1⟩

/-- The position after one more character: a line feed opens a new line. -/
def Pos.next (p : Pos) (c : Char) : Pos :=
  if c = '\n' then ⟨p.path, p.offset + 1, p.line + 1, 1⟩
  else ⟨p.path, p.offset + 1, p.line, p.column + 1⟩

/-- The position `n` characters further on the same line. -/
def Pos.right (p : Pos) (n : Nat) : Pos :=
  ⟨p.path, p.offset + n, p.line, p.column + n⟩

/-- The part of a source text between two positions. -/
structure Span where
  start : Pos
  stop : Pos
deriving DecidableEq, Repr

/-- The span of no characters at a position. -/
def Span.at (p : Pos) : Span :=
  ⟨p, p⟩

/-- The span from the start of the first to the end of the second. -/
def Span.join (first last : Span) : Span :=
  ⟨first.start, last.stop⟩

/-- A message together with the place it is about. -/
def located (text path : String) (line column : Int) : String :=
  s!"{text} at {path}:{line}:{column}"

/-- A message about a span names the position where the span starts. -/
def Span.locate (span : Span) (text : String) : String :=
  located text span.start.path span.start.line span.start.column

end Vapor
