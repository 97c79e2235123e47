/-
Vapor/Json/Analysis.lean

The results of the analyses as JSON.  Sets have no JSON form, so the liveness of
a function can be shown only if the function has no instructions.
-/
import Vapor.Allocation.Interval
import Vapor.Json.Program
import Vapor.Frame

namespace Vapor

/-- Why a value cannot be dumped. -/
inductive DumpError where
  /-- A number that is no integer. -/
  | fraction
  /-- A set. -/
  | set
deriving DecidableEq, Inhabited, Repr

/-- The message for the user. -/
def DumpError.message : DumpError → String
  | fraction => "Unsupported IR debug serialization value: float"
  | set => "Unsupported IR debug serialization value: frozenset"

/-- An interval as JSON. -/
def Interval.toJson (i : Interval) : Json :=
  .node "LiveInterval"
    [("name", .str i.name), ("start", .int i.start), ("end", .int i.stop),
      ("crosses_call", .bool i.crossesCall)]

/-- A frame as JSON. -/
def Frame.toJson (f : Frame) : Json :=
  .node "FrameSizes" [("in_", .int f.ins), ("out", .int f.outs), ("local", .int f.locals)]

/-- The liveness of a function as JSON. -/
def Liveness.toJson (live : Liveness) : Except DumpError Json :=
  match live.rows with
  | [] =>
    .ok (.node "Liveness"
      [("live_in_sets", .arr []), ("live_out_sets", .arr []), ("use_sets", .arr []),
        ("def_sets", .arr []), ("call_indices", .arr (live.calls.map fun (i : Nat) => .int i))])
  | _ => .error .set

end Vapor
