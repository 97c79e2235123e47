/-
Vapor/Emission/Function.lean

The lines for a function: its header, the prologue, then for each instruction
the labels before it and its own lines, and the labels at the end.  The
prologue keeps the callee-saved registers in use and brings the parameters that
are live on entry to their places.
-/
import Vapor.Emission.Instr

namespace Vapor

namespace Emit

open Machine

variable {α : Type}

/-- Brings a parameter from where the caller has put it to its place.  One that
is dead on entry is left alone: its register may belong to another parameter. -/
def param (m : Allocation) (live : Liveness) (position : Nat) (x : Ref α) : Gen α Unit :=
  if live.entry.contains x.name then
    match m.location? x.name, Register.arguments[position]? with
    | none, _ => pure ()
    | some l, some r => assign (toLocation l) (.value (.register r))
    | some (.register r), none => assign (.register r) (.inSlot (position - argumentCount))
    | some (.slot k), none => do
      let r ← acquire
      assign (.register r) (.inSlot (position - argumentCount))
      assign (.localSlot k) (.value (.register r))
      release r
  else pure ()

/-- Brings parameters to their places, from the given position on. -/
def params (m : Allocation) (live : Liveness) : Nat → List (Ref α) → Gen α Unit
  | _, [] => pure ()
  | position, x :: xs => do
    param m live position x
    params m live (position + 1) xs

/-- Keeps the callee-saved registers in use, then brings the parameters to
their places. -/
def prologue (fn : Function α) (m : Allocation) (live : Liveness) : Gen α Unit := do
  lines (saveLines 0 m.calleeSaved)
  params m live 0 fn.params

/-- Fails unless all scratch registers have been given back after the
instruction with this index. -/
def settled (function : String) (index : Nat) : Gen α Unit := do
  let now ← pool
  if now.isIdle then pure () else fail (.pool (.leaked now.inUse index function))

/-- The labels before the instruction with this index. -/
def labelLines (fn : Function α) (index : Nat) : List Line :=
  (fn.labelsAt index).map .label

/-- The instructions from the given index on, with their labels. -/
def body (fn : Function α) (m : Allocation) (live : Liveness) : Nat → List (Instr α) → Gen α Unit
  | index, [] => lines (labelLines fn index)
  | index, i :: rest => do
    lines (labelLines fn index)
    instr m (i.kept m live index) i
    settled fn.name index
    body fn m live (index + 1) rest

/-- A whole function; the result is its frame. -/
def function (fn : Function α) (m : Allocation) (live : Liveness) : Gen α Frame := do
  let frame := fn.frame m live
  line (.header fn.name frame)
  prologue fn m live
  body fn m live 0 fn.body
  return frame

end Emit

end Vapor
