/-
Vapor/Allocation/Basic.lean

Where the variables of a function live: each in a register or in a slot of the
function's frame.  The lowest local slots are set aside for the callee-saved
registers in use; the slots of variables lie above them.
-/
import Vapor.Data.Sorted
import Vapor.Machine.Register

namespace Vapor

/-- A place for a variable. -/
inductive Location where
  | register (r : Register)
  | slot (offset : Nat)
deriving DecidableEq, Repr

/-- A slot among the locals, as it is written. -/
def localSlot (offset : Int) : String :=
  s!"local[{offset}]"

/-- A location, as it is written. -/
def Location.text : Location → String
  | register r => r.name
  | slot offset => localSlot offset

/-- Why an assignment of places is refused. -/
inductive PlacementError where
  /-- A variable has both a register and a slot. -/
  | twice (name : String)
  /-- A variable has a register that is not for variables. -/
  | reserved (name : String) (r : Register)
  /-- A variable has a slot that a callee-saved register needs, or none at all. -/
  | overlapping (name : String) (offset : Int)
deriving DecidableEq, Repr

/-- The message for the user. -/
def PlacementError.message : PlacementError → String
  | twice name => s!"variable '{name}' is both register-resident and spilled"
  | reserved name r => s!"variable '{name}' assigned to reserved register '{r.name}'"
  | overlapping name offset =>
    s!"variable '{name}' spilled to {localSlot offset} inside the callee-save area"

/-- An assignment of places to variables. -/
structure Allocation where
  /-- The variables in registers. -/
  registers : List (String × Register)
  /-- The variables in slots. -/
  slots : List (String × Nat)
deriving DecidableEq, Repr

namespace Allocation

/-- The callee-saved registers among some places, in their order. -/
def calleeSavedIn (registers : List (String × Register)) : List Register :=
  Register.allCalleeSaved.filter fun r => (registers.map Prod.snd).contains r

/-- The least name, in the order of code points, among some names. -/
def least? (names : List String) : Option String :=
  (Sorted.sort (fun a b => a <= b) names).head?

/-- Checks an assignment of places: no variable has two, only allocatable
registers are used, and no slot is needed for a callee-saved register. -/
def ofPlaces (registers : List (String × Register)) (slots : List (String × Int)) :
    Except PlacementError Allocation :=
  let slotted := slots.map Prod.fst
  match least? ((registers.map Prod.fst).filter fun x => slotted.contains x) with
  | some name => .error (.twice name)
  | none =>
    match registers.find? fun x => !x.2.isAllocatable with
    | some (name, r) => .error (.reserved name r)
    | none =>
      match slots.find? fun x => x.2 < ((calleeSavedIn registers).length : Int) with
      | some (name, offset) => .error (.overlapping name offset)
      | none => .ok ⟨registers, slots.map fun x => (x.1, x.2.toNat)⟩

/-- The register of a variable. -/
def register? (m : Allocation) (x : String) : Option Register :=
  m.registers.lookup x

/-- The slot of a variable. -/
def slot? (m : Allocation) (x : String) : Option Nat :=
  m.slots.lookup x

/-- The place of a variable. -/
def location? (m : Allocation) (x : String) : Option Location :=
  match m.register? x with
  | some r => some (.register r)
  | none => (m.slot? x).map .slot

/-- The callee-saved registers in use, in their order. -/
def calleeSaved (m : Allocation) : List Register :=
  calleeSavedIn m.registers

/-- The number of local slots for callee-saved registers and variables. -/
def slotCount (m : Allocation) : Nat :=
  m.slots.foldl (fun size x => max size (x.2 + 1)) m.calleeSaved.length

/-- The variables that have a place, in the order of code points. -/
def names (m : Allocation) : List String :=
  Sorted.sort (fun a b => a <= b) (m.registers.map Prod.fst ++ m.slots.map Prod.fst)

/-- The places of all variables, a line for each. -/
def listing (m : Allocation) : List String :=
  m.names.filterMap fun x => (m.location? x).map fun l => s!"{x} -> {l.text}"

end Allocation

end Vapor
