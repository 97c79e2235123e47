/-
Vapor/Machine/Pool.lean

A pool of registers to borrow from.  Registers are handed out in the order in
which the pool was declared; a register that comes back takes its old place.
-/
import Vapor.Data.Sorted
import Vapor.Machine.Register

namespace Vapor

/-- A pool of registers. -/
structure Pool where
  /-- All registers of the pool, in the order in which they are handed out. -/
  declared : List Register
  /-- Those that are not handed out. -/
  free : List Register
deriving DecidableEq, Repr

/-- What can go wrong with a pool. -/
inductive PoolError where
  /-- No register is left; those in use are listed. -/
  | exhausted (inUse : List Register)
  /-- A register is given back that is not of the pool. -/
  | foreign (r : Register)
  /-- A register is given back that is free already. -/
  | releasedTwice (r : Register)
  /-- Registers are still in use after an instruction of a function. -/
  | leaked (inUse : List Register) (index : Nat) (function : String)
deriving DecidableEq, Repr

/-- The message for the user. -/
def PoolError.message : PoolError → String
  | exhausted inUse =>
    s!"local register pool exhausted (checked out: {Register.nameList inUse})"
  | foreign r => s!"register '{r.name}' does not belong to the local pool"
  | releasedTwice r => s!"register '{r.name}' released twice"
  | leaked inUse index function =>
    s!"scratch registers {Register.nameList inUse} still checked out after " ++
      s!"instruction {index} of '{function}'"

namespace Pool

/-- A pool of the given registers, all of them free. -/
def ofList (registers : List Register) : Pool :=
  ⟨registers, registers⟩

/-- The pool of scratch registers. -/
def scratch : Pool :=
  ofList Register.scratches

/-- Does the register belong to the pool? -/
def contains (pool : Pool) (r : Register) : Bool :=
  pool.declared.contains r

/-- The registers that are handed out. -/
def inUse (pool : Pool) : List Register :=
  pool.declared.filter fun r => !pool.free.contains r

/-- Are all registers free? -/
def isIdle (pool : Pool) : Bool :=
  pool.free.length == pool.declared.length

/-- Hands out the first free register. -/
def acquire (pool : Pool) : Except PoolError (Register × Pool) :=
  match pool.free with
  | [] => .error (.exhausted pool.inUse)
  | r :: free => .ok (r, { pool with free := free })

/-- Takes a register back. -/
def release (pool : Pool) (r : Register) : Except PoolError Pool :=
  if !pool.contains r then .error (.foreign r)
  else if pool.free.contains r then .error (.releasedTwice r)
  else
    let earlier (a b : Register) : Bool := pool.declared.idxOf a <= pool.declared.idxOf b
    .ok { pool with free := Sorted.sort earlier (pool.free ++ [r]) }

end Pool

end Vapor
