/-
Vapor/Proofs/Semantics/Machine.lean

What Vapor-M code does.  The registers are shared by all activations; each
activation has its own slots.  The incoming slots of a callee are the outgoing ones
of its caller, and what its other slots hold at first is left open.

As for programs there are two ways of running code: `Machine.openStep` runs the
lines of one function and has its calls answered from outside, `Machine.step` runs
the functions of a program with a stack of activations.
-/
import Vapor.Machine.Line
import Vapor.Proofs.Semantics.Source

namespace Vapor

namespace Machine

variable {V W : Type}

/-- What an activation can see. -/
structure Store (V W : Type) where
  regs : Register → V
  ins : Nat → V
  outs : Nat → V
  locals : Nat → V
  outside : Outside V W

/-- The state of an activation: the number of the next line, and the store. -/
structure State (V W : Type) where
  line : Nat
  store : Store V W

/-! ### Lines -/

/-- The value of a value. -/
def Value.eval (I : Interp V W) (σ : Store V W) : Value → V
  | register r => σ.regs r
  | int value => I.int value
  | label name => I.label name
  | text lexeme => I.text lexeme

/-- What a line assigns, and what is left outside. -/
def Source.eval (I : Interp V W) (σ : Store V W) : Source → V × Outside V W
  | value v => (v.eval I σ, σ.outside)
  | localSlot k => (σ.locals k, σ.outside)
  | inSlot k => (σ.ins k, σ.outside)
  | memory base offset => I.readFrom (σ.regs base) offset σ.outside
  | apply op args => I.applyTo op (args.map (Value.eval I σ)) σ.outside

namespace Store

/-- Writes a register. -/
def setReg (σ : Store V W) (r : Register) (v : V) : Store V W :=
  { σ with regs := fun q => if q = r then v else σ.regs q }

theorem regs_setReg_self (σ : Store V W) (r : Register) (v : V) : (σ.setReg r v).regs r = v :=
  if_pos rfl

theorem regs_setReg_of_ne (σ : Store V W) {q r : Register} (v : V) (h : q ≠ r) :
    (σ.setReg r v).regs q = σ.regs q :=
  if_neg h

/-- Writes a local slot. -/
def setLocal (σ : Store V W) (k : Nat) (v : V) : Store V W :=
  { σ with locals := fun j => if j = k then v else σ.locals j }

/-- Writes an outgoing slot. -/
def setOut (σ : Store V W) (k : Nat) (v : V) : Store V W :=
  { σ with outs := fun j => if j = k then v else σ.outs j }

/-- Changes what is outside. -/
def setOutside (σ : Store V W) (o : Outside V W) : Store V W :=
  { σ with outside := o }

/-- Writes to a destination. -/
def write (I : Interp V W) (σ : Store V W) (v : V) : Dest → Store V W
  | .register r => σ.setReg r v
  | .localSlot k => σ.setLocal k v
  | .outSlot k => σ.setOut k v
  | .memory base offset => σ.setOutside (I.writeTo (σ.regs base) offset v σ.outside)

end Store

/-- The effect of a line after which control goes on to the next one. -/
def Line.effect? (I : Interp V W) (σ : Store V W) : Line → Option (Store V W)
  | header _ _ => some σ
  | label _ => some σ
  | assign dest source =>
    let r := source.eval I σ
    some ((σ.setOutside r.2).write I r.1 dest)
  | apply op args => some (σ.setOutside (I.applyTo op (args.map (Value.eval I σ)) σ.outside).2)
  | _ => none

/-- What a line leads to. -/
inductive Outcome (V W : Type) where
  | next (t : State V W)
  | call (callee : Entry V)
  | ret

/-- The number of the line with a label. -/
def labelled? (code : List Line) (name : String) : Option Nat :=
  code.findIdx? fun l => l == .label name

/-- What is called. -/
def Target.eval (σ : Store V W) : Target → Entry V
  | register r => .address (σ.regs r)
  | label name => .named name

/-- Executes a line. -/
def execLine (I : Interp V W) (code : List Line) (t : State V W) : Line → Option (Outcome V W)
  | .call target => some (.call (target.eval t.store))
  | .branch positive test target =>
    let r := I.branch positive (test.eval I t.store) t.store.outside
    (if r.1 then labelled? code target else some (t.line + 1)).map fun line =>
      .next ⟨line, t.store.setOutside r.2⟩
  | .goto target => (labelled? code target).map fun line => .next ⟨line, t.store⟩
  | .ret => some .ret
  | l => (l.effect? I t.store).map fun σ => .next ⟨t.line + 1, σ⟩

/-- Executes the next line. -/
def exec (I : Interp V W) (code : List Line) (t : State V W) : Option (Outcome V W) := do
  execLine I code t (← code[t.line]?)

/-! ### The calling convention -/

/-- The argument at a position, as the caller leaves it. -/
def Store.passed (σ : Store V W) (position : Nat) : V :=
  match Register.arguments[position]? with
  | some r => σ.regs r
  | none => σ.outs (position - argumentCount)

/-- The argument at a position, as the callee finds it. -/
def Store.received (σ : Store V W) (position : Nat) : V :=
  match Register.arguments[position]? with
  | some r => σ.regs r
  | none => σ.ins (position - argumentCount)

/-! ### A function by itself -/

/-- A call that has been made, with whatever stands where arguments are passed. -/
structure Call (V W : Type) where
  callee : Entry V
  passed : Nat → V
  outside : Outside V W

/-- What a call leaves behind wherever it may leave anything. -/
structure Debris (V : Type) where
  regs : Register → V
  ins : Nat → V
  outs : Nat → V

/-- The store after a call.  The callee-saved registers and the local slots are as
before, and the result is where it belongs; all else is arbitrary. -/
def Store.afterCall (σ : Store V W) (reply : Reply V W) (debris : Debris V) : Store V W where
  regs r :=
    if r.isCalleeSaved then σ.regs r
    else if r = .result then reply.result
    else debris.regs r
  ins := debris.ins
  outs := debris.outs
  locals := σ.locals
  outside := reply.outside

/-- The lines of a function on their way, with the calls made so far, the latest
first. -/
inductive Open (V W : Type) where
  | running (t : State V W) (calls : List (Call V W))
  | returned (σ : Store V W) (calls : List (Call V W))

/-- A step of a function whose calls are answered in turn by the replies and leave
the debris. -/
def openStep (I : Interp V W) (replies : Nat → Reply V W) (debris : Nat → Debris V)
    (code : List Line) : Open V W → Option (Open V W)
  | .running t calls => do
    match ← exec I code t with
    | .next t' => return .running t' calls
    | .call callee =>
      return .running
        ⟨t.line + 1, t.store.afterCall (replies calls.length) (debris calls.length)⟩
        (⟨callee, t.store.passed, t.store.outside⟩ :: calls)
    | .ret => return .returned t.store calls
  | .returned .. => none

/-! ### Programs -/

/-- An activation that waits for a call to return. -/
structure Pending (V : Type) where
  code : List Line
  line : Nat
  ins : Nat → V
  outs : Nat → V
  locals : Nat → V

/-- Goes on after a call: the slots are those of the caller. -/
def Pending.resume (w : Pending V) (σ : Store V W) : State V W :=
  ⟨w.line, ⟨σ.regs, w.ins, w.outs, w.locals, σ.outside⟩⟩

/-- What the outgoing and the local slots of a new activation hold. -/
structure Slots (V : Type) where
  outs : Nat → V
  locals : Nat → V

/-- The state on entry. -/
def enter (σ : Store V W) (fresh : Slots V) : State V W :=
  ⟨0, ⟨σ.regs, σ.outs, fresh.outs, fresh.locals, σ.outside⟩⟩

/-- Code on its way; the calls that have been made are counted. -/
inductive Config (V W : Type) where
  | running (code : List Line) (t : State V W) (stack : List (Pending V)) (calls : Nat)
  | returned (σ : Store V W)

/-- Are these the lines of the function of this name? -/
def isFunction (name : String) (code : List Line) : Bool :=
  match code.head? with
  | some (.header f _) => f == name
  | _ => false

/-- A step of a program, `fresh` being what new activations find in their slots. -/
def step (I : Interp V W) (fresh : Nat → Slots V) (functions : List (List Line)) :
    Config V W → Option (Config V W)
  | .running code t stack calls => do
    match ← exec I code t with
    | .next t' => return .running code t' stack calls
    | .call callee =>
      let name ← callee.name? I
      let lines ← functions.find? (isFunction name)
      return .running lines (enter t.store (fresh calls))
        (⟨code, t.line + 1, t.store.ins, t.store.outs, t.store.locals⟩ :: stack) (calls + 1)
    | .ret =>
      match stack with
      | [] => return .returned t.store
      | w :: stack => return .running w.code (w.resume t.store) stack calls
  | .returned _ => none

end Machine

end Vapor
