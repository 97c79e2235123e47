/-
Vapor/Allocation/LinearScan.lean

Allocation by a single scan over the live intervals in the order of their
starts.  A register is free again once the interval it was given to has ended.
An interval that crosses a call prefers a callee-saved register, any other one a
caller-saved register.  If no register is free, then the interval that ends
last is spilled: the one just met, or the last of those that hold a register,
which then passes its register on.
-/
import Vapor.Allocation.Basic
import Vapor.Allocation.Interval

namespace Vapor

/-- The registers that an allocator may give to variables. -/
structure Allocator where
  callerSaved : List Register := Register.allCallerSaved
  calleeSaved : List Register := Register.allCalleeSaved
deriving DecidableEq, Repr

/-- An interval that holds a register. -/
structure Holder where
  interval : Interval
  register : Register
deriving DecidableEq, Repr

/-- Holders are ordered by the end of their intervals, then by name. -/
def Holder.before (a b : Holder) : Bool :=
  a.interval.stop < b.interval.stop ||
    (a.interval.stop == b.interval.stop && a.interval.name < b.interval.name)

/-- The state of the scan. -/
structure Scan where
  freeCaller : List Register
  freeCallee : List Register
  /-- The variables that have a register for good or until they are spilled. -/
  placed : List (String × Register) := []
  /-- The variables without a register, in the order in which they lost it. -/
  spilled : List String := []
  /-- The intervals that hold a register now, the one that ends last at the end. -/
  active : List Holder := []
deriving DecidableEq, Repr

namespace Scan

/-- The free registers in their order, with one more. -/
def refill (free : List Register) (r : Register) : List Register :=
  Sorted.sort (fun a b => a.order <= b.order) (free ++ [r])

/-- Gives a register back. -/
def release (s : Scan) (r : Register) : Scan :=
  if r.isCalleeSaved then { s with freeCallee := refill s.freeCallee r }
  else { s with freeCaller := refill s.freeCaller r }

/-- Ends all intervals that end before the index. -/
def expire (s : Scan) (index : Nat) : Scan :=
  let (ended, active) := s.active.partition fun h => h.interval.stop < index
  ended.foldl (fun s h => s.release h.register) { s with active := active }

/-- Takes a free register, of the preferred kind if there is one. -/
def take? (s : Scan) (preferCallee : Bool) : Option (Register × Scan) :=
  match preferCallee, s.freeCaller, s.freeCallee with
  | true, _, r :: rest => some (r, { s with freeCallee := rest })
  | true, r :: rest, [] => some (r, { s with freeCaller := rest })
  | false, r :: rest, _ => some (r, { s with freeCaller := rest })
  | false, [], r :: rest => some (r, { s with freeCallee := rest })
  | _, [], [] => none

/-- Lets an interval hold a register. -/
def place (s : Scan) (i : Interval) (r : Register) : Scan :=
  let holder : Holder := ⟨i, r⟩
  { s with
    placed := s.placed ++ [(i.name, r)]
    active := Sorted.insert Holder.before holder s.active }

/-- Leaves a variable without a register. -/
def spill (s : Scan) (x : String) : Scan :=
  { s with spilled := s.spilled ++ [x] }

/-- Meets the next interval. -/
def step (s : Scan) (i : Interval) : Scan :=
  let s := s.expire i.start
  match s.take? i.crossesCall with
  | some (r, s) => s.place i r
  | none =>
    match s.active.getLast? with
    | none => s.spill i.name
    | some h =>
      if h.interval.stop <= i.stop then s.spill i.name
      else
        let rest := { s with
          placed := s.placed.filter fun x => x.1 != h.interval.name
          active := s.active.dropLast }
        (rest.spill h.interval.name).place i h.register

end Scan

namespace Allocator

/-- The scan before the first interval. -/
def start (a : Allocator) : Scan :=
  { freeCaller := a.callerSaved, freeCallee := a.calleeSaved }

/-- The scan over some intervals. -/
def scan (a : Allocator) (intervals : List Interval) : Scan :=
  intervals.foldl Scan.step a.start

/-- Places for all variables: spilled variables take the slots above those of
the callee-saved registers, in the order in which they were spilled. -/
def allocate (a : Allocator) (live : Liveness) : Except PlacementError Allocation :=
  let s := a.scan live.intervals
  let base := (Allocation.calleeSavedIn s.placed).length
  Allocation.ofPlaces s.placed (s.spilled.zipIdx base |>.map fun x => (x.1, (x.2 : Int)))

end Allocator

end Vapor
