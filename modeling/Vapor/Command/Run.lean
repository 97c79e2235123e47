/-
Vapor/Command/Run.lean

Runs of the command line.  `compile` takes a source text through the stages and
says what is printed and how it ends; `run` surrounds it with reading the input
and writing the output in a directory.  A failure prints a message and ends the
run; what was printed before stays.
-/
import Vapor.Command.Directory
import Vapor.Command.Listing
import Vapor.Command.Options
import Vapor.Json.Program
import Vapor.Emission.Program
import Vapor.Program.Parser
import Vapor.Source.Lexer
import Vapor.Text.Utf8

namespace Vapor.Command

open Text

/-! ### Compiling -/

/-- How a compilation ends. -/
inductive Ending where
  /-- After the stage that was asked for. -/
  | stopped
  /-- With the text of the result. -/
  | finished (text : String)
  /-- With a message. -/
  | failed (message : String)
deriving DecidableEq, Repr

/-- What a compilation prints, and how it ends. -/
structure Report where
  printed : String
  ending : Ending
deriving DecidableEq, Repr

/-- A text if it is asked for. -/
def shown (asked : Bool) (text : String) : String :=
  if asked then text else ""

/-- What is printed about the functions of a program, and the message of the
first failure. -/
def analyses (o : Options) : List (Function Span) → String × Option String
  | [] => ("", none)
  | fn :: rest =>
    match fn.liveness with
    | .error e => ("", some e.message)
    | .ok live =>
      let first := shown o.printLiveness (livenessListing fn.name live)
      if o.stopAfter = some .liveness then
        let (more, failure) := analyses o rest
        (first ++ more, failure)
      else
        match ({} : Allocator).allocate live with
        | .error e => (first, some e.message)
        | .ok m =>
          let second := shown o.printAllocation (allocationListing fn.name m)
          let (more, failure) := analyses o rest
          (first ++ second ++ more, failure)

/-- Are the functions to be analysed before they are written? -/
def Options.analyses (o : Options) : Bool :=
  o.printLiveness || o.printAllocation || o.stopAfter == some .liveness ||
    o.stopAfter == some .alloc

/-- Why a width does not make an indentation. -/
inductive IndentError where
  /-- There is no width. -/
  | absent
  | negative
  /-- The width is no size of anything. -/
  | tooWide
  /-- No memory can hold an indentation of the width. -/
  | noMemory
deriving DecidableEq, Repr

/-- The message for the user. -/
def IndentError.message : IndentError → String
  | absent => "'<' not supported between instances of 'list' and 'int'"
  | negative => "--indent must not be negative"
  | tooWide => "cannot fit 'int' into an index-sized integer"
  | noMemory => ""

/-- The least number that is no size of anything, two to the power of 63. -/
def sizeLimit : Int :=
  0x8000000000000000

/-- The least number of characters that no memory can hold, two to the power of 47. -/
def memoryLimit : Int :=
  0x800000000000

/-- A width that is there and not negative. -/
def checkWidth : Option Int → Except IndentError Int
  | none => .error .absent
  | some width => if width < 0 then .error .negative else .ok width

/-- The indentation of a width. -/
def indentUnit (width : Option Int) : Except IndentError String := do
  let n ← checkWidth width
  if sizeLimit <= n then .error .tooWide
  else if memoryLimit <= n then .error .noMemory
  else .ok (String.ofList (List.replicate n.toNat ' '))

/-- The message for the user about a stage to stop after that is not there. -/
def noStage : String :=
  "unhashable type: 'list'"

/-- Writes a program as Vapor-M. -/
def emit (o : Options) (p : Program Span) : Ending :=
  match indentUnit o.indent with
  | .error e => .failed e.message
  | .ok unit =>
    match ({} : Allocator).compile unit p with
    | .error e => .failed e.message
    | .ok text => .finished text

/-- Takes a source text through the stages. -/
def compile (o : Options) (path source : String) : Report :=
  match lex path source with
  | .error e => ⟨"", .failed e.message⟩
  | .ok tokens =>
    let printed := shown o.printTokens (tokenListing tokens)
    if o.stopAfter = some .lex then ⟨printed, .stopped⟩
    else
      match parse tokens with
      | .error e => ⟨printed, .failed e.message⟩
      | .ok p =>
        let printed := printed ++ shown o.printProgram (p.dump o.printSpans ++ "\n")
        if o.stopAfter = some .parse then ⟨printed, .stopped⟩
        else
          let (listing, failure) := if o.analyses then analyses o p.functions else ("", none)
          let printed := printed ++ listing
          match failure with
          | some message => ⟨printed, .failed message⟩
          | none =>
            match o.stopAfter with
            | none => ⟨printed, .failed noStage⟩
            | some .liveness | some .alloc => ⟨printed, .stopped⟩
            | some _ => ⟨printed, emit o p⟩

/-! ### Runs -/

/-- A message for the user. -/
def complaint (message : String) : String :=
  programName ++ ": " ++ message ++ "\n"

/-- The text of a file, with line feeds for its line ends. -/
def textOf (contents : Bytes) : Except String String :=
  match decodeUtf8 contents with
  | .error e => .error e.message
  | .ok text => .ok (String.ofList (unifyLineEnds text.toList))

/-- The name of the input and its text, given the standard input, which is taken
as it is, and what opening the input file has led to. -/
def source (o : Options) (stdin : String) (file : Except FileFault Bytes) :
    Except String (String × String) :=
  let path := Path.ofString o.input
  match checkWidth o.indent with
  | .error e => .error e.message
  | .ok _ =>
    if o.input = "-" then .ok ("<stdin>", stdin)
    else
      match file with
      | .error e => .error (e.message path)
      | .ok contents => (textOf contents).map fun text => (path.text, text)

/-- Compiles the input. -/
def report (o : Options) (stdin : String) (file : Except FileFault Bytes) : Report :=
  match source o stdin file with
  | .error message => ⟨"", .failed message⟩
  | .ok (path, text) => compile o path text

/-- The text for the output file, if there is one to be written. -/
def Report.output? (o : Options) (r : Report) : Option String :=
  match r.ending with
  | .finished text => if o.output = "" then none else some text
  | _ => none

/-- What a run leaves behind besides files. -/
structure Outcome where
  exit : Nat
  stdout : String
  stderr : String
deriving DecidableEq, Repr

/-- The end of a run, given what has prevented the output file from being
written.  The result is printed if it is asked for, or else goes nowhere. -/
def Report.outcome (o : Options) (r : Report) (fault : Option FileFault) : Outcome :=
  match r.ending, fault with
  | .failed message, _ => ⟨1, r.printed, complaint message⟩
  | .stopped, _ => ⟨0, r.printed, ""⟩
  | .finished _, some e => ⟨1, r.printed, complaint (e.message (Path.ofString o.output))⟩
  | .finished text, none => ⟨0, r.printed ++ shown (o.printResult || o.output == "") text, ""⟩

/-- A run with the given options in a directory. -/
def runWith (o : Options) (stdin : String) (dir : Directory) : Outcome × Directory :=
  let r := report o stdin (dir.read (Path.ofString o.input))
  match r.output? o with
  | none => (r.outcome o none, dir)
  | some text =>
    match dir.write (Path.ofString o.output) text.toUTF8.toList with
    | .error e => (r.outcome o (some e), dir)
    | .ok files => (r.outcome o none, files)

/-- A run of the command line in a directory. -/
def run (args : List String) (stdin : String) (dir : Directory) : Outcome × Directory :=
  match command args with
  | .error e => (⟨2, "", e.message⟩, dir)
  | .ok .help => (⟨0, helpText, ""⟩, dir)
  | .ok (.compile o) => runWith o stdin dir

end Vapor.Command
