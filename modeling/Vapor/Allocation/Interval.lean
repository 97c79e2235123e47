/-
Vapor/Allocation/Interval.lean

Live intervals.  A variable occurs at an instruction if it is live before it or
written by it; its interval is the smallest run of instructions that holds all
its occurrences.  Whether the variable survives a call decides which kind of
register suits it.
-/
import Vapor.Data.Sorted
import Vapor.Liveness.Basic

namespace Vapor

/-- The run of instructions that a variable needs a place for. -/
structure Interval where
  name : String
  /-- The index of the first occurrence. -/
  start : Nat
  /-- The index of the last occurrence. -/
  stop : Nat
  /-- Is the variable live across some call? -/
  crossesCall : Bool
deriving DecidableEq, Repr

namespace Interval

/-- Intervals are ordered by their start, then by their end, then by name. -/
def le (a b : Interval) : Bool :=
  a.start < b.start ||
    (a.start == b.start && (a.stop < b.stop || (a.stop == b.stop && a.name <= b.name)))

end Interval

namespace Liveness

/-- Does the variable occur at the instruction? -/
def Row.has (x : String) (row : Row) : Bool :=
  row.liveIn.contains x || row.defs.contains x

/-- All variables that occur. -/
def names (live : Liveness) : Names :=
  Names.ofList (live.rows.flatMap fun row => row.liveIn ++ row.defs)

/-- The indices of the instructions at which the variable occurs. -/
def occurrences (live : Liveness) (x : String) : List Nat :=
  (live.rows.zipIdx.filter fun r => r.1.has x).map Prod.snd

/-- Is the variable live across some call? -/
def crossesCall (live : Liveness) (x : String) : Bool :=
  live.calls.any fun index => (live.across index).contains x

/-- The interval of a variable, if it occurs at all. -/
def interval? (live : Liveness) (x : String) : Option Interval :=
  match live.occurrences x with
  | [] => none
  | first :: rest => some ⟨x, first, rest.getLastD first, live.crossesCall x⟩

/-- The intervals of all variables, in order. -/
def intervals (live : Liveness) : List Interval :=
  Sorted.sort Interval.le (live.names.filterMap live.interval?)

end Liveness

end Vapor
