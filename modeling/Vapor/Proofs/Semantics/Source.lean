/-
Vapor/Proofs/Semantics/Source.lean

What programs do.  `Function.exec` makes one step of a function: it goes on, calls,
returns or is stuck.  It is stuck where it reads a variable that has never been
written, jumps to a label it does not have, or runs off its end.

A step is used in two ways.  `Function.openStep` runs a function by itself; each
call is answered by a reply from outside and recorded.  `Program.step` runs a whole
program with a stack of activations.
-/
import Vapor.Program.Basic
import Vapor.Proofs.Semantics.Basic

namespace Vapor

variable {α V W : Type}

/-! ### Operands -/

/-- The value of an operand; a variable may have none. -/
def Operand.eval (I : Interp V W) (vars : String → Option V) : Operand α → Option V
  | .var ref => vars ref.name
  | .int value _ => some (I.int value)
  | .text lexeme _ => some (I.text lexeme)
  | .label ref => some (I.label ref.name)

/-- What is called. -/
def Callee.eval (vars : String → Option V) : Callee α → Option (Entry V)
  | .var ref => (vars ref.name).map .address
  | .label ref => some (.named ref.name)

/-! ### Steps of a function -/

namespace Source

/-- The state of an activation. -/
structure State (V W : Type) where
  /-- The index of the next instruction. -/
  index : Nat
  /-- The variables that have been written. -/
  vars : String → Option V
  outside : Outside V W

namespace State

/-- Control goes to an instruction. -/
def goTo (s : State V W) (index : Nat) (o : Outside V W) : State V W :=
  ⟨index, s.vars, o⟩

/-- The next instruction, after a value has been written to the destination. -/
def complete (s : State V W) (dest : Option String) (v : V) (o : Outside V W) : State V W :=
  ⟨s.index + 1, fun x => if dest = some x then some v else s.vars x, o⟩

end State

/-- What an instruction leads to. -/
inductive Outcome (V W : Type) where
  | next (s : State V W)
  | call (dest : Option String) (callee : Entry V) (args : List V)
  | ret (value : Option V)

end Source

namespace Function

/-- The index of the instruction that a label stands before. -/
def labelled? (fn : Function α) (name : String) : Option Nat :=
  (fn.indexOf? name).bind Int.toNat?

/-- Executes an instruction of a function. -/
def execInstr (I : Interp V W) (fn : Function α) (s : Source.State V W) :
    Instr α → Option (Source.Outcome V W)
  | .assign dest source _ => do
    let v ← source.eval I s.vars
    return .next (s.complete (some dest.name) v s.outside)
  | .call dest callee args _ => do
    let entry ← callee.eval s.vars
    let vs ← args.mapM (Operand.eval I s.vars)
    return .call (dest.map Ref.name) entry vs
  | .apply dest op args _ => do
    let vs ← args.mapM (Operand.eval I s.vars)
    let r := I.applyTo op vs s.outside
    return .next (s.complete (dest.map Ref.name) r.1 r.2)
  | .store dest source _ => do
    let base ← s.vars dest.base.name
    let v ← source.eval I s.vars
    return .next (s.goTo (s.index + 1) (I.writeTo base dest.offset v s.outside))
  | .load dest source _ => do
    let base ← s.vars source.base.name
    let r := I.readFrom base source.offset s.outside
    return .next (s.complete (some dest.name) r.1 r.2)
  | .branch test positive target _ => do
    let v ← test.eval I s.vars
    let r := I.branch positive v s.outside
    (if r.1 then fn.labelled? target.name else some (s.index + 1)).map fun index =>
      .next (s.goTo index r.2)
  | .goto target _ =>
    (fn.labelled? target.name).map fun index => .next (s.goTo index s.outside)
  | .ret none _ => some (.ret none)
  | .ret (some o) _ => do
    let v ← o.eval I s.vars
    return .ret (some v)

/-- Executes the next instruction. -/
def exec (I : Interp V W) (fn : Function α) (s : Source.State V W) :
    Option (Source.Outcome V W) := do
  fn.execInstr I s (← fn.body[s.index]?)

/-- Only calls call. -/
theorem execInstr_eq_call {I : Interp V W} {fn : Function α} {s : Source.State V W} {i : Instr α}
    {dest : Option String} {entry : Entry V} {vs : List V}
    (h : fn.execInstr I s i = some (.call dest entry vs)) :
    ∃ x callee args note, i = .call x callee args note ∧ dest = x.map Ref.name ∧
      callee.eval s.vars = some entry ∧ args.mapM (Operand.eval I s.vars) = some vs := by
  cases i with
  | call x callee args note =>
    obtain ⟨entry', hentry, h⟩ := Option.bind_eq_some_iff.mp h
    obtain ⟨vs', hvs, h⟩ := Option.bind_eq_some_iff.mp h
    obtain ⟨rfl, rfl, rfl⟩ := Source.Outcome.call.inj (Option.some.inj h)
    exact ⟨x, callee, args, note, rfl, rfl, hentry, hvs⟩
  | assign | apply | store | load | branch | goto => simp [execInstr, Option.bind_eq_some_iff] at h
  | ret value => cases value <;> simp [execInstr, Option.bind_eq_some_iff] at h

/-- Only returns return. -/
theorem execInstr_eq_ret {I : Interp V W} {fn : Function α} {s : Source.State V W} {i : Instr α}
    {value : Option V} (h : fn.execInstr I s i = some (.ret value)) :
    ∃ result note, i = .ret result note ∧
      result.map (Operand.eval I s.vars) = value.map some := by
  cases i with
  | ret result note =>
    refine ⟨result, note, rfl, ?_⟩
    cases result with
    | none =>
      obtain rfl := Source.Outcome.ret.inj (Option.some.inj h)
      rfl
    | some o =>
      obtain ⟨v, hv, h⟩ := Option.bind_eq_some_iff.mp h
      obtain rfl := Source.Outcome.ret.inj (Option.some.inj h)
      exact congrArg some hv
  | assign | call | apply | store | load | branch | goto =>
    simp [execInstr, Option.bind_eq_some_iff] at h

/-- The state on entry: the parameters are written. -/
def enter (fn : Function α) (args : List V) (o : Outside V W) : Source.State V W :=
  ⟨0, fun x => ((fn.params.map Ref.name).zip args).lookup x, o⟩

end Function

/-! ### A function by itself -/

/-- What a call returns, and what it leaves outside. -/
structure Reply (V W : Type) where
  result : V
  outside : Outside V W

namespace Source

/-- A call that has been made. -/
structure Call (V W : Type) where
  callee : Entry V
  args : List V
  outside : Outside V W

/-- A function on its way, with the calls made so far, the latest first. -/
inductive Open (V W : Type) where
  | running (s : State V W) (calls : List (Call V W))
  | returned (value : Option V) (outside : Outside V W) (calls : List (Call V W))

end Source

/-- A step of a function whose calls are answered in turn by the replies. -/
def Function.openStep (I : Interp V W) (replies : Nat → Reply V W) (fn : Function α) :
    Source.Open V W → Option (Source.Open V W)
  | .running s calls => do
    match ← fn.exec I s with
    | .next s' => return .running s' calls
    | .call dest callee args =>
      let reply := replies calls.length
      return .running (s.complete dest reply.result reply.outside)
        (⟨callee, args, s.outside⟩ :: calls)
    | .ret value => return .returned value s.outside calls
  | .returned .. => none

/-! ### Programs -/

namespace Source

/-- An activation that waits for a call to return. -/
structure Pending (α V W : Type) where
  fn : Function α
  state : State V W
  dest : Option String

/-- Goes on after a call.  Nothing can be written to a destination if no value is
returned. -/
def Pending.resume (w : Pending α V W) (value : Option V) (o : Outside V W) :
    Option (State V W) :=
  match w.dest, value with
  | none, _ => some (w.state.goTo (w.state.index + 1) o)
  | some x, some v => some (w.state.complete (some x) v o)
  | some _, none => none

/-- A program on its way. -/
inductive Config (α V W : Type) where
  | running (fn : Function α) (s : State V W) (stack : List (Pending α V W))
  | returned (value : Option V) (outside : Outside V W)

end Source

namespace Program

/-- The function of a name. -/
def function? (p : Program α) (name : String) : Option (Function α) :=
  p.functions.find? fun fn => fn.name == name

/-- A step of a program. -/
def step (I : Interp V W) (p : Program α) :
    Source.Config α V W → Option (Source.Config α V W)
  | .running fn s stack => do
    match ← fn.exec I s with
    | .next s' => return .running fn s' stack
    | .call dest callee args =>
      let callee ← (callee.name? I).bind p.function?
      if args.length = callee.params.length then
        return .running callee (callee.enter args s.outside) (⟨fn, s, dest⟩ :: stack)
      else none
    | .ret value =>
      match stack with
      | [] => return .returned value s.outside
      | w :: stack => return .running w.fn (← w.resume value s.outside) stack
  | .returned .. => none

end Program

end Vapor
