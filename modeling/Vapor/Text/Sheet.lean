/-
Vapor/Text/Sheet.lean

A sheet of text that grows line by line at an indentation level.  A line may be
written in pieces; it is indented when its first piece is written.  A line with
nothing on it is not indented.
-/

namespace Vapor.Text

/-- A sheet of text. -/
structure Sheet where
  /-- What a line is indented by per level. -/
  unit : String := "  "
  level : Nat := 0
  /-- The finished lines. -/
  lines : List String := []
  /-- The line being written. -/
  pending : String := ""
deriving DecidableEq, Repr

namespace Sheet

/-- The indentation of a line at some level. -/
def indentation (unit : String) (level : Nat) : String :=
  String.join (List.replicate level unit)

/-- One level deeper. -/
def deeper (s : Sheet) : Sheet :=
  { s with level := s.level + 1 }

/-- One level less deep, unless the level is zero. -/
def shallower? (s : Sheet) : Option Sheet :=
  match s.level with
  | 0 => none
  | n + 1 => some { s with level := n }

/-- What to say of a level below zero. -/
def belowZeroMessage : String :=
  "cannot decrease indentation below zero"

/-- Writes a piece of a line. -/
def write (s : Sheet) (piece : String) : Sheet :=
  let begun := if s.pending.isEmpty then indentation s.unit s.level else s.pending
  { s with pending := begun ++ piece }

/-- Writes a piece and ends the line. -/
def writeLine (s : Sheet) (piece : String) : Sheet :=
  if piece.isEmpty && s.pending.isEmpty then { s with lines := s.lines ++ [""] }
  else
    let s := s.write piece
    { s with lines := s.lines ++ [s.pending], pending := "" }

/-- The whole text; every line is ended, also one that is still being written. -/
def text (s : Sheet) : String :=
  let lines := if s.pending.isEmpty then s.lines else s.lines ++ [s.pending]
  String.join (lines.map (· ++ "\n"))

end Sheet

end Vapor.Text
