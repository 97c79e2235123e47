/-
Vapor/Emission/Program.lean

Whole programs on a sheet of text: the data segments first, each with a blank
line behind it, then the functions with a blank line between them.  A failure
leaves the sheet as far as it got.
-/
import Vapor.Allocation.LinearScan
import Vapor.Emission.Function
import Vapor.Text.Sheet

namespace Vapor

open Text

variable {α : Type}

/-- Why a program cannot be compiled. -/
inductive CompileError (α : Type) where
  | flow (cause : FlowError α)
  | placement (cause : PlacementError)
  | emission (cause : EmitError α)
deriving DecidableEq, Repr

/-- The message for the user. -/
def CompileError.message : CompileError Span → String
  | flow cause => cause.message
  | placement cause => cause.message
  | emission cause => cause.message

/-! ### Data segments -/

/-- A word of a data segment, as it is written. -/
def Datum.render : Datum α → String
  | .int value _ => (Machine.Value.int value).render
  | .label ref => (Machine.Value.label ref.name).render

namespace Text.Sheet

/-- Writes lines one level deeper. -/
def writeBelow (s : Sheet) (lines : List String) : Sheet :=
  { lines.foldl writeLine s.deeper with level := s.level }

/-- Writes a data segment.  The target has constant segments only. -/
def writeSegment (s : Sheet) (segment : Segment α) : Sheet :=
  ((s.writeLine ("const " ++ segment.name)).writeBelow (segment.values.map Datum.render)).writeLine ""

/-- Writes several data segments. -/
def writeSegments (s : Sheet) (segments : List (Segment α)) : Sheet :=
  segments.foldl writeSegment s

/-! ### Functions -/

/-- Writes a line of a function whose margin is the given level. -/
def writeMachineLine (margin : Nat) (s : Sheet) (line : Machine.Line) : Sheet :=
  { s with level := margin + line.depth }.writeLine line.render

/-- Writes the lines of a function.  The level is as before at the end, but one
deeper if the function was not completed. -/
def writeEmission {ε β : Type} (s : Sheet) (e : Emission ε β) : Sheet :=
  { e.lines.foldl (writeMachineLine s.level) s with
    level := if e.result.isOk then s.level else s.level + 1 }

end Text.Sheet

namespace Allocator

/-- Analyses a function, finds places for its variables and writes its lines. -/
def emission (a : Allocator) (fn : Function α) :
    Except (CompileError α) (Emission (EmitError α) Frame) := do
  let live ← fn.liveness.mapError .flow
  let m ← (a.allocate live).mapError .placement
  return (Emit.function fn m live).run Pool.scratch

/-- Writes a function. -/
def writeFunction (a : Allocator) (s : Sheet) (fn : Function α) :
    Sheet × Except (CompileError α) Unit :=
  match a.emission fn with
  | .error e => (s, .error e)
  | .ok e => (s.writeEmission e, (e.result.map fun _ => ()).mapError .emission)

/-- Writes functions with blank lines between them; `first` says whether no
function stands before them. -/
def writeFunctions (a : Allocator) (s : Sheet) (first : Bool) :
    List (Function α) → Sheet × Except (CompileError α) Unit
  | [] => (s, .ok ())
  | fn :: rest =>
    match a.writeFunction (if first then s else s.writeLine "") fn with
    | (s, .ok ()) => a.writeFunctions s false rest
    | (s, .error e) => (s, .error e)

/-- Writes a program. -/
def writeProgram (a : Allocator) (s : Sheet) (p : Program α) :
    Sheet × Except (CompileError α) Unit :=
  a.writeFunctions (s.writeSegments p.segments) true p.functions

/-- The Vapor-M text of a program, indented by the given unit. -/
def compile (a : Allocator) (unit : String) (p : Program α) : Except (CompileError α) String :=
  match a.writeProgram { unit := unit } p with
  | (s, .ok ()) => .ok s.text
  | (_, .error e) => .error e

end Allocator

end Vapor
