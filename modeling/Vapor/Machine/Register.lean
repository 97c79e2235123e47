/-
Vapor/Machine/Register.lean

The registers of the target machine and their roles in the calling convention.
The first arguments of a call travel in the argument registers and its result
in the return register.  A call preserves the callee-saved registers and
nothing else.  Variables live in caller-saved and callee-saved registers only;
the scratch registers carry values within a single instruction.
-/

namespace Vapor

/-- The registers. -/
inductive Register where
  | argument (i : Fin 4)
  | result
  | callerSaved (i : Fin 7)
  | calleeSaved (i : Fin 8)
  | scratch (i : Fin 3)
deriving DecidableEq, Repr

namespace Register

/-- The argument registers. -/
def arguments : List Register :=
  (List.finRange 4).map argument

/-- The caller-saved registers. -/
def allCallerSaved : List Register :=
  (List.finRange 7).map callerSaved

/-- The callee-saved registers. -/
def allCalleeSaved : List Register :=
  (List.finRange 8).map calleeSaved

/-- The scratch registers; three are enough for any instruction but the
application of an operation. -/
def scratches : List Register :=
  (List.finRange 3).map scratch

/-- All registers in their order. -/
def all : List Register :=
  arguments ++ [result] ++ allCallerSaved ++ allCalleeSaved ++ scratches

/-- The position of a register among all registers. -/
def order : Register → Nat
  | argument i => i
  | result => 4
  | callerSaved i => 5 + i
  | calleeSaved i => 12 + i
  | scratch i => 20 + i

/-- The name of a register. -/
def name : Register → String
  | argument i => s!"$a{i.val}"
  | result => "$v0"
  | callerSaved i => s!"$t{i.val}"
  | calleeSaved i => s!"$s{i.val}"
  | scratch 0 => "$t7"
  | scratch 1 => "$t8"
  | scratch 2 => "$v1"

/-- The register of a name. -/
def named? (name : String) : Option Register :=
  all.find? fun r => r.name == name

/-- What to say of a name that no register has. -/
def unknownMessage (name : String) : String :=
  s!"Unknown register '{name}'"

/-- Is the value lost in a call? -/
def isCallerSaved : Register → Bool
  | callerSaved _ => true
  | _ => false

/-- Does a function have to leave the register as it found it? -/
def isCalleeSaved : Register → Bool
  | calleeSaved _ => true
  | _ => false

/-- May a variable live in the register? -/
def isAllocatable (r : Register) : Bool :=
  r.isCallerSaved || r.isCalleeSaved

/-- The name of the role of a register. -/
def role : Register → String
  | argument _ => "ARGUMENT"
  | result => "RETURN_VALUE"
  | callerSaved _ => "CALLER_SAVED"
  | calleeSaved _ => "CALLEE_SAVED"
  | scratch _ => "LOCAL_SCRATCH"

/-- The names of several registers, separated by commas. -/
def nameList (rs : List Register) : String :=
  String.intercalate ", " (rs.map name)

/-! ### Names and order -/

/-- A register is found by its name. -/
@[simp] theorem named?_name (r : Register) : named? r.name = some r := by
  cases r with
  | argument i => revert i; decide +kernel
  | result => decide +kernel
  | callerSaved i => revert i; decide +kernel
  | calleeSaved i => revert i; decide +kernel
  | scratch i => revert i; decide +kernel

/-- No two registers have the same name. -/
theorem name_injective {r s : Register} (h : r.name = s.name) : r = s := by
  have : some r = some s := by rw [← named?_name r, h, named?_name]
  exact Option.some.inj this

/-- Registers are listed in their order. -/
theorem getElem?_order (r : Register) : all[r.order]? = some r := by
  cases r with
  | argument i => revert i; decide
  | result => decide
  | callerSaved i => revert i; decide
  | calleeSaved i => revert i; decide
  | scratch i => revert i; decide

/-- No two registers have the same position. -/
theorem order_injective {r s : Register} (h : r.order = s.order) : r = s := by
  have : some r = some s := by rw [← getElem?_order r, h, getElem?_order]
  exact Option.some.inj this

end Register

end Vapor
