/-
Vapor/Frame.lean

The frame of a function: how many slots it needs for arguments beyond those
that travel in registers, its own (`ins`) and those of its calls (`outs`), and
for what it keeps itself (`locals`).  Around a call the caller-saved registers
that hold live variables are kept in slots above all others.
-/
import Vapor.Allocation.Basic
import Vapor.Liveness.Basic

namespace Vapor

/-- The numbers of slots in a frame. -/
structure Frame where
  ins : Nat
  outs : Nat
  locals : Nat
deriving DecidableEq, Repr

/-- The number of arguments that travel in registers. -/
def argumentCount : Nat :=
  Register.arguments.length

/-- The caller-saved registers whose values must survive the instruction with
this index. -/
def Allocation.keptAcross (m : Allocation) (live : Liveness) (index : Nat) : List Register :=
  Register.allCallerSaved.filter fun r =>
    (live.across index).any fun x => m.register? x == some r

variable {α : Type}

/-- The slots for arguments that an instruction needs. -/
def Instr.outSlots : Instr α → Nat
  | .call _ _ args _ => args.length - argumentCount
  | _ => 0

/-- The registers that must be kept across an instruction, if it is a call. -/
def Instr.kept (m : Allocation) (live : Liveness) (index : Nat) : Instr α → List Register
  | .call .. => m.keptAcross live index
  | _ => []

/-- The frame of a function. -/
def Function.frame (fn : Function α) (m : Allocation) (live : Liveness) : Frame where
  ins := fn.params.length - argumentCount
  outs := (fn.body.map Instr.outSlots).foldl max 0
  locals := m.slotCount +
    (fn.body.zipIdx.map fun x => (x.1.kept m live x.2).length).foldl max 0

end Vapor
