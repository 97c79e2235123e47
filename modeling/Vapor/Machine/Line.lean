/-
Vapor/Machine/Line.lean

The lines of a Vapor-M function: instructions over registers, the slots of the
frame and memory, and how they are written.
-/
import Vapor.Frame

namespace Vapor

namespace Machine

/-- A value that stands in a line by itself. -/
inductive Value where
  | register (r : Register)
  | int (value : Int)
  | label (name : String)
  /-- A string, kept as it was written, quotes included. -/
  | text (lexeme : String)
deriving DecidableEq, Repr

/-- What a line may assign to. -/
inductive Dest where
  | register (r : Register)
  | localSlot (offset : Nat)
  | outSlot (offset : Nat)
  | memory (base : Register) (offset : Int)
deriving DecidableEq, Repr

/-- What a line may assign. -/
inductive Source where
  | value (v : Value)
  | localSlot (offset : Nat)
  | inSlot (offset : Nat)
  | memory (base : Register) (offset : Int)
  | apply (op : String) (args : List Value)
deriving DecidableEq, Repr

/-- What a line may call. -/
inductive Target where
  | register (r : Register)
  | label (name : String)
deriving DecidableEq, Repr

/-- The lines of a function. -/
inductive Line where
  | header (name : String) (frame : Frame)
  | label (name : String)
  | assign (dest : Dest) (source : Source)
  | apply (op : String) (args : List Value)
  | call (target : Target)
  | branch (positive : Bool) (test : Value) (target : String)
  | goto (target : String)
  | ret
deriving DecidableEq, Repr

/-! ### How lines are written -/

/-- A slot among the incoming arguments. -/
def inSlot (offset : Int) : String :=
  s!"in[{offset}]"

/-- A slot among the outgoing arguments. -/
def outSlot (offset : Int) : String :=
  s!"out[{offset}]"

/-- A place in memory: an offset of zero is left out, and a negative one brings
its own sign. -/
def memory (base : Register) (offset : Int) : String :=
  if offset = 0 then s!"[{base.name}]"
  else if offset < 0 then s!"[{base.name}{offset}]"
  else s!"[{base.name}+{offset}]"

/-- A label as a value. -/
def labelText (name : String) : String :=
  s!":{name}"

/-- A value. -/
def Value.render : Value → String
  | register r => r.name
  | int value => toString value
  | label name => labelText name
  | text lexeme => lexeme

/-- An operation applied to arguments that are written already. -/
def application (op : String) (args : List String) : String :=
  op ++ "(" ++ String.intercalate " " args ++ ")"

/-- An assignment whose sides are written already. -/
def assignment (dest source : String) : String :=
  dest ++ " = " ++ source

/-- What is assigned to. -/
def Dest.render : Dest → String
  | register r => r.name
  | localSlot offset => Vapor.localSlot offset
  | outSlot offset => Machine.outSlot offset
  | memory base offset => Machine.memory base offset

/-- What is assigned. -/
def Source.render : Source → String
  | value v => v.render
  | localSlot offset => Vapor.localSlot offset
  | inSlot offset => Machine.inSlot offset
  | memory base offset => Machine.memory base offset
  | apply op args => application op (args.map Value.render)

/-- What is called. -/
def Target.render : Target → String
  | register r => r.name
  | label name => labelText name

/-- The header of a function with the sizes of its frame. -/
def header (name : String) (ins outs locals : Int) : String :=
  s!"func {name} [in {ins}, out {outs}, local {locals}]"

/-- A label before an instruction. -/
def labelLine (name : String) : String :=
  s!"{name}:"

/-- A conditional jump whose parts are written already. -/
def branchLine (positive : Bool) (test target : String) : String :=
  (if positive then "if " else "if0 ") ++ test ++ " goto " ++ target

namespace Line

/-- A line, without indentation. -/
def render : Line → String
  | header name frame => Machine.header name frame.ins frame.outs frame.locals
  | label name => labelLine name
  | assign dest source => assignment dest.render source.render
  | apply op args => application op (args.map Value.render)
  | call target => "call " ++ target.render
  | branch positive test target => branchLine positive test.render (labelText target)
  | goto target => "goto " ++ labelText target
  | ret => "ret"

/-- Headers and labels stand at the margin of a function, all other lines one
level deeper. -/
def depth : Line → Nat
  | header .. => 0
  | label _ => 0
  | _ => 1

end Line

end Machine

/-! ### Terms of either language -/

/-- A term that someone wants to see written in a Vapor-M line: an operand of a
program, a register or a slot. -/
inductive Term where
  | operand (o : Operand Unit)
  | register (r : Register)
  | slot (offset : Int)
deriving DecidableEq, Repr

/-- Why a term cannot be written. -/
inductive TermError where
  /-- A variable has no place by itself. -/
  | unplaced (name : String)
  /-- The term is of a kind that is no operand. -/
  | notOperand (kind : String)
  /-- The term is of a kind that has no name to stand for a location. -/
  | nameless (kind : String)
deriving DecidableEq, Repr

/-- The message for the user. -/
def TermError.message : TermError → String
  | unplaced name => s!"variable '{name}' must be rendered through its location"
  | notOperand kind => s!"operand rendering not implemented for {kind}"
  | nameless kind => s!"'{kind}' object has no attribute 'name'"

namespace Term

/-- The term as an operand: a literal, a string or a label. -/
def asOperand : Term → Except TermError String
  | operand (.var ref) => .error (.unplaced ref.name)
  | operand (.int value _) => .ok (Machine.Value.int value).render
  | operand (.text lexeme _) => .ok (Machine.Value.text lexeme).render
  | operand (.label ref) => .ok (Machine.Value.label ref.name).render
  | register _ => .error (.notOperand "Register")
  | slot _ => .error (.notOperand "StackSlot")

/-- The term as a value: a register or an operand. -/
def asValue : Term → Except TermError String
  | register r => .ok r.name
  | t => t.asOperand

/-- The term as a location: a slot, or whatever goes by a name. -/
def asLocation : Term → Except TermError String
  | slot offset => .ok (localSlot offset)
  | register r => .ok r.name
  | operand (.var ref) => .ok ref.name
  | operand (.label ref) => .ok ref.name
  | operand (.int ..) => .error (.nameless "IntLit")
  | operand (.text ..) => .error (.nameless "StringLit")

end Term

end Vapor
