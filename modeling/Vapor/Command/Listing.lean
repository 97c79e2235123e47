/-
Vapor/Command/Listing.lean

What the command line prints about the stages of a compilation.
-/
import Vapor.Allocation.LinearScan
import Vapor.Source.Token
import Vapor.Text.Quoted

namespace Vapor.Command

open Text

/-- A text filled up with blanks on its right. -/
def padRight (width : Nat) (text : String) : String :=
  text ++ String.ofList (List.replicate (width - text.length) ' ')

/-- A text filled up with blanks on its left. -/
def padLeft (width : Nat) (text : String) : String :=
  String.ofList (List.replicate (width - text.length) ' ') ++ text

/-- Lines, each of them ended. -/
def unlines (lines : List String) : String :=
  String.join (lines.map (· ++ "\n"))

/-- A token: its kind, its text in quotes and where it starts. -/
def tokenLine (t : Token) : String :=
  let start := t.span.start
  s!"{padRight 14 t.kind.name} {padRight 18 (quoted t.lexeme)} {start.path}:{start.line}:{start.column}"

/-- All tokens, one to a line. -/
def tokenListing (tokens : List Token) : String :=
  unlines (tokens.map tokenLine)

/-- Names in braces. -/
def braced (names : List String) : String :=
  "\x7b" ++ String.intercalate ", " names ++ "\x7d"

/-- What is live at an instruction. -/
def livenessLine (index : Nat) (row : Liveness.Row) : String :=
  s!"  {padLeft 4 (toString index)}  in={braced row.liveIn}  out={braced row.liveOut}" ++
    s!"  use={braced row.uses}  def={braced row.defs}"

/-- The liveness of a function. -/
def livenessListing (name : String) (live : Liveness) : String :=
  unlines (s!"liveness {name}" :: live.rows.zipIdx.map fun x => livenessLine x.2 x.1)

/-- The places of the variables of a function. -/
def allocationListing (name : String) (m : Allocation) : String :=
  let callee := braced (m.calleeSaved.map Register.name)
  unlines (s!"allocation {name} [stack {m.slotCount}, callee {callee}]" ::
    m.listing.map fun line => "  " ++ line)

end Vapor.Command
