/-
Vapor/Liveness/Flow.lean

What each instruction reads and writes, and where control goes from it.
Control that runs off the end of a function has no successor there; a jump to
a label at the end has none either.
-/
import Vapor.Data.Names
import Vapor.Program.Basic
import Vapor.Source.Span

namespace Vapor

variable {α : Type}

/-! ### Variables read and written -/

/-- The variables of an operand: itself, if it is one. -/
def Operand.vars : Operand α → List String
  | .var ref => [ref.name]
  | _ => []

/-- The variables of a callee: itself, if it is one. -/
def Callee.vars : Callee α → List String
  | .var ref => [ref.name]
  | .label _ => []

namespace Instr

/-- The variables an instruction reads. -/
def uses : Instr α → Names
  | .assign _ source _ => Names.ofList source.vars
  | .call _ callee args _ => Names.ofList (callee.vars ++ args.flatMap Operand.vars)
  | .apply _ _ args _ => Names.ofList (args.flatMap Operand.vars)
  | .store dest source _ => Names.ofList (dest.base.name :: source.vars)
  | .load _ source _ => [source.base.name]
  | .branch test _ _ _ => Names.ofList test.vars
  | .goto _ _ => []
  | .ret value _ => Names.ofList (value.toList.flatMap Operand.vars)

/-- The variables an instruction writes: at most one. -/
def defs : Instr α → Names
  | .assign dest _ _ => [dest.name]
  | .call dest _ _ _ => (dest.map Ref.name).toList
  | .apply dest _ _ _ => (dest.map Ref.name).toList
  | .load dest _ _ => [dest.name]
  | _ => []

/-- Is the instruction a call? -/
def isCall : Instr α → Bool
  | .call .. => true
  | _ => false

end Instr

/-! ### Control -/

/-- Why liveness is not defined. -/
inductive FlowError (α : Type) where
  /-- A jump to a label that the function does not have. -/
  | unknownLabel (label function : String) (note : α)
  /-- A label that stands beyond the end of the function. -/
  | labelOutOfRange (label : String) (note : α)
  /-- A jump to before the beginning of the function. -/
  | beforeStart
deriving DecidableEq, Repr

namespace FlowError

/-- The wording of the error. -/
def text : FlowError α → String
  | unknownLabel label function _ => s!"Unknown label ':{label}' in function '{function}'"
  | labelOutOfRange label _ => s!"Label '{label}' is out of range"
  | beforeStart => "list index out of range"

/-- The note of the label that is wrong, if one is. -/
def note? : FlowError α → Option α
  | unknownLabel _ _ n => some n
  | labelOutOfRange _ n => some n
  | beforeStart => none

/-- The message for the user. -/
def message (e : FlowError Span) : String :=
  match e.note? with
  | some span => span.locate e.text
  | none => e.text

end FlowError

namespace Function

/-- The index that a jump goes to. -/
def target (fn : Function α) (label : Ref α) : Except (FlowError α) Int :=
  match fn.indexOf? label.name with
  | some index => .ok index
  | none => .error (.unknownLabel label.name fn.name label.note)

/-- The index itself, unless it is beyond the last instruction. -/
def within (fn : Function α) (index : Int) : List Int :=
  if index < fn.body.length then [index] else []

/-- The indices of the instructions that may be executed right after the given
one, which has the given index.  The target of a jump is given as its label
gives it. -/
def successors (fn : Function α) (index : Nat) : Instr α → Except (FlowError α) (List Int)
  | .ret _ _ => .ok []
  | .goto label _ => return fn.within (← fn.target label)
  | .branch _ _ label _ =>
    return (fn.within (index + 1) ++ fn.within (← fn.target label)).eraseDups
  | _ => .ok (fn.within (index + 1))

/-- The instruction that an index stands for: below zero it counts from the end. -/
def position (fn : Function α) (index : Int) : Except (FlowError α) Nat :=
  if 0 ≤ index then .ok index.toNat
  else if 0 ≤ index + fn.body.length then .ok (index + fn.body.length).toNat
  else .error .beforeStart

end Function

end Vapor
