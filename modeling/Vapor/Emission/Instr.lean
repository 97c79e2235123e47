/-
Vapor/Emission/Instr.lean

The lines for a single instruction.  A variable in a register is used where it
is.  A variable in a slot is brought into a scratch register first, and if the
instruction writes it, back into its slot afterwards; the scratch register is
given back as soon as its value is no longer needed.
-/
import Vapor.Emission.Basic

namespace Vapor

namespace Emit

open Machine

variable {α : Type}

/-- A generator for lines of a function. -/
abbrev Gen (α β : Type) := Emit (EmitError α) β

/-! ### Operands -/

/-- The place of a variable, which must have one. -/
def location (m : Allocation) (x : Ref α) : Gen α Location :=
  match m.location? x.name with
  | some l => pure l
  | none => fail (.noLocation x.name x.note)

/-- A location as the source of an assignment. -/
def fromLocation : Location → Source
  | .register r => .value (.register r)
  | .slot k => .localSlot k

/-- A location as the destination of an assignment. -/
def toLocation : Location → Dest
  | .register r => .register r
  | .slot k => .localSlot k

/-- Brings a variable into a register: its own, or a scratch register. -/
def load (m : Allocation) (x : Ref α) : Gen α Register := do
  match ← location m x with
  | .register r => return r
  | .slot k =>
    let r ← acquire
    assign (.register r) (.localSlot k)
    return r

/-- Brings a register back to the slot of a variable, if it has one. -/
def store (m : Allocation) (r : Register) (x : Ref α) : Gen α Unit :=
  match m.slot? x.name with
  | some k => assign (.localSlot k) (.value (.register r))
  | none => pure ()

/-- An operand as a value, or the variable that it is. -/
def literal : Operand α → Ref α ⊕ Value
  | .var ref => .inl ref
  | .int value _ => .inr (.int value)
  | .text lexeme _ => .inr (.text lexeme)
  | .label ref => .inr (.label ref.name)

/-- Makes an operand a value; variables are loaded. -/
def value (m : Allocation) (o : Operand α) : Gen α Value :=
  match literal o with
  | .inl ref => return .register (← load m ref)
  | .inr v => return v

/-- Gives back the register of a value, if it is borrowed. -/
def drop : Value → Gen α Unit
  | .register r => giveBack r
  | _ => pure ()

/-- Writes a line that sets a variable, then brings the variable to its place. -/
def define (m : Allocation) (x : Ref α) (source : Source) : Gen α Unit := do
  let r ← load m x
  assign (.register r) source
  store m r x
  giveBack r

/-! ### Calls -/

/-- Passes an argument on.  The first ones travel in registers, directly from
wherever they are; the others in slots, through a register. -/
def passArg (m : Allocation) (position : Nat) (arg : Operand α) : Gen α Unit :=
  match Register.arguments[position]?, literal arg with
  | some r, .inl x => do
    let l ← location m x
    assign (.register r) (fromLocation l)
  | some r, .inr v => assign (.register r) (.value v)
  | none, .inl x => do
    let r ← load m x
    assign (.outSlot (position - argumentCount)) (.value (.register r))
    giveBack r
  | none, .inr v => assign (.outSlot (position - argumentCount)) (.value v)

/-- Passes arguments on, from the given position. -/
def passArgs (m : Allocation) : Nat → List (Operand α) → Gen α Unit
  | _, [] => pure ()
  | position, arg :: args => do
    passArg m position arg
    passArgs m (position + 1) args

/-- Transfers control to the callee. -/
def transfer (m : Allocation) : Callee α → Gen α Unit
  | .label f => line (.call (.label f.name))
  | .var x => do
    let r ← load m x
    line (.call (.register r))
    giveBack r

/-- Lines that bring registers into local slots from `base` on. -/
def saveLines (base : Nat) (rs : List Register) : List Line :=
  (rs.zipIdx base).map fun x => .assign (.localSlot x.2) (.value (.register x.1))

/-- Lines that bring registers back from local slots from `base` on. -/
def restoreLines (base : Nat) (rs : List Register) : List Line :=
  (rs.zipIdx base).map fun x => .assign (.register x.1) (.localSlot x.2)

/-! ### Instructions -/

/-- Loads all operands. -/
def values (m : Allocation) : List (Operand α) → Gen α (List Value)
  | [] => return []
  | o :: os => return (← value m o) :: (← values m os)

/-- Gives back the registers of all values. -/
def dropAll : List Value → Gen α Unit
  | [] => pure ()
  | v :: vs => do
    drop v
    dropAll vs

/-- The lines for an instruction.  If it is a call, then the registers `kept`
are kept across it. -/
def instr (m : Allocation) (kept : List Register) : Instr α → Gen α Unit
  | .assign dest source _ => do
    let r ← load m dest
    let v ← value m source
    assign (.register r) (.value v)
    drop v
    store m r dest
    giveBack r
  | .call dest callee args _ => do
    lines (saveLines m.slotCount kept)
    passArgs m 0 args
    transfer m callee
    match dest with
    | some x => define m x (.value (.register .result))
    | none => pure ()
    lines (restoreLines m.slotCount kept)
  | .apply dest op args _ => do
    let vs ← values m args
    match dest with
    | some x => define m x (.apply op vs)
    | none => line (.apply op vs)
    dropAll vs
  | .store dest source _ => do
    let base ← load m dest.base
    let v ← value m source
    assign (.memory base dest.offset) (.value v)
    drop v
    giveBack base
  | .load dest source _ => do
    let r ← load m dest
    let base ← load m source.base
    assign (.register r) (.memory base source.offset)
    giveBack base
    store m r dest
    giveBack r
  | .branch test positive target _ => do
    let v ← value m test
    line (.branch positive v target.name)
    drop v
  | .goto target _ => line (.goto target.name)
  | .ret result _ => do
    match result with
    | some o =>
      let v ← value m o
      assign (.register .result) (.value v)
      drop v
    | none => pure ()
    lines (restoreLines 0 m.calleeSaved)
    line .ret

end Emit

end Vapor
