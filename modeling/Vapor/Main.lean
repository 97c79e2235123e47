/-
Vapor/Main.lean

The command line program: it reads the input, runs the compilation and writes
what comes of it.
-/
import Vapor.Command.Run

namespace Vapor.Command

/-- The fault behind an error of the operating system, by its number. -/
def FileFault.ofCode (code : UInt32) : FileFault :=
  if code = 20 then .notDirectory
  else if code = 21 then .isDirectory
  else if code = 36 then .nameTooLong
  else .missing

/-- The fault behind an error. -/
def FileFault.ofError : IO.Error → FileFault
  | .inappropriateType _ code _ => .ofCode code
  | .invalidArgument _ code _ => .ofCode code
  | _ => .missing

/-- The contents of a file. -/
def readBytes (path : Path) : IO (Except FileFault Bytes) := do
  try
    return .ok (← IO.FS.readBinFile path.text).toList
  catch e =>
    return .error (.ofError e)

/-- Writes a file; returns what has prevented it. -/
def writeText (path : Path) (text : String) : IO (Option FileFault) := do
  try
    IO.FS.writeFile path.text text
    return none
  catch e =>
    return some (.ofError e)

/-- All that comes from a stream. -/
partial def readAll (stream : IO.FS.Stream) (before : String) : IO String := do
  let line ← stream.getLine
  if line.isEmpty then return before else readAll stream (before ++ line)

/-- Ends a run. -/
def conclude (outcome : Outcome) : IO UInt32 := do
  IO.print outcome.stdout
  IO.eprint outcome.stderr
  return outcome.exit.toUInt32

/-- A run with the given options on the files of the machine. -/
def runOnFiles (o : Options) : IO UInt32 := do
  let stdin ← if o.input = "-" then readAll (← IO.getStdin) "" else pure ""
  let file ← if o.input = "-" then pure (.ok []) else readBytes (Path.ofString o.input)
  let r := report o stdin file
  match r.output? o with
  | none => conclude (r.outcome o none)
  | some text => conclude (r.outcome o (← writeText (Path.ofString o.output) text))

end Vapor.Command

open Vapor.Command in
/-- The program. -/
def main (args : List String) : IO UInt32 :=
  match command args with
  | .error e => conclude ⟨2, "", e.message⟩
  | .ok .help => conclude ⟨0, helpText, ""⟩
  | .ok (.compile o) => runOnFiles o
