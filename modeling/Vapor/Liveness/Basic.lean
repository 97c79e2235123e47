/-
Vapor/Liveness/Basic.lean

Which variables are live at each instruction of a function: those whose value
may still be read before it is overwritten.

The sets of variables live before the instructions are the least ones that
satisfy

    in(i) = uses(i) ∪ (out(i) \ defs(i)),   out(i) = union of in(s), s a successor of i.

They are found by sweeping over the instructions from the last to the first
until nothing changes.  A sweep uses the sets it has just computed for later
instructions and those of the sweep before for the others, so after `n` sweeps
every read that can be reached by a path of fewer than `n` steps is accounted
for; and the shortest path to a read visits no instruction twice.  As many
sweeps as there are instructions therefore find what is live before each of
them, and one more what is live after it.
-/
import Vapor.Liveness.Flow

namespace Vapor

variable {α : Type}

namespace Liveness

/-! ### Sweeps -/

/-- What liveness depends on at one instruction. -/
structure Node where
  uses : Names
  defs : Names
  /-- The indices of the successors. -/
  next : List Nat
deriving DecidableEq, Repr

/-- What is live after an instruction, given what is live before each instruction. -/
def Node.liveOut (node : Node) (liveIn : Nat → Names) : Names :=
  node.next.foldr (fun s live => Names.union (liveIn s) live) []

/-- What is live before an instruction, given what is live after it. -/
def Node.liveIn (node : Node) (out : Names) : Names :=
  Names.union node.uses (out.diff node.defs)

/-- What is live before and after an instruction. -/
structure Sets where
  liveIn : Names
  liveOut : Names
deriving DecidableEq, Repr

/-- What is live before the instruction with this index; nothing, if there is none. -/
def liveInAt (sets : List Sets) (index : Nat) : Names :=
  (sets[index]?.map Sets.liveIn).getD []

/-- The sets found for the nodes from the given index on by one sweep, `old`
being the sets that the sweep before has found for all nodes. -/
def sweep (old : List Sets) : Nat → List Node → List Sets
  | _, [] => []
  | index, node :: nodes =>
    let later := sweep old (index + 1) nodes
    let out := node.liveOut fun s =>
      if index < s then liveInAt later (s - index - 1) else liveInAt old s
    ⟨node.liveIn out, out⟩ :: later

/-- Sweeps until nothing changes, but at most the given number of times. -/
def settle (nodes : List Node) : Nat → List Sets → List Sets
  | 0, sets => sets
  | rounds + 1, sets =>
    let new := sweep sets 0 nodes
    if new = sets then sets else settle nodes rounds new

/-- The sets before the first sweep: nothing is live. -/
def unswept (nodes : List Node) : List Sets :=
  nodes.map fun _ => ⟨[], []⟩

/-- What is live before and after each of the nodes. -/
def settled (nodes : List Node) : List Sets :=
  settle nodes (nodes.length + 1) (unswept nodes)

/-- What is known about one instruction. -/
structure Row where
  uses : Names
  defs : Names
  liveIn : Names
  liveOut : Names
deriving DecidableEq, Repr

/-- The rows of the nodes. -/
def table (nodes : List Node) : List Row :=
  nodes.zipWith (fun node sets => ⟨node.uses, node.defs, sets.liveIn, sets.liveOut⟩) (settled nodes)

/-- What is live after an instruction and not written by it. -/
def Row.across (row : Row) : Names :=
  row.liveOut.diff row.defs

end Liveness

/-- The liveness of a function: a row for each instruction, and the indices of
the calls. -/
structure Liveness where
  rows : List Liveness.Row
  calls : List Nat
deriving DecidableEq, Repr

namespace Liveness

/-- The variables that are live before the instruction with this index. -/
def liveIn (live : Liveness) (index : Nat) : Names :=
  (live.rows[index]?.map Row.liveIn).getD []

/-- The variables that are live after the instruction with this index. -/
def liveOut (live : Liveness) (index : Nat) : Names :=
  (live.rows[index]?.map Row.liveOut).getD []

/-- The variables that survive the instruction with this index. -/
def across (live : Liveness) (index : Nat) : Names :=
  (live.rows[index]?.map Row.across).getD []

/-- The variables that are live when the function is entered. -/
def entry (live : Liveness) : Names :=
  (live.rows.head?.map Row.liveIn).getD []

end Liveness

/-! ### Functions -/

namespace Function

/-- The successors of the instructions from the given index on. -/
def successorsFrom (fn : Function α) (index : Nat) :
    List (Instr α) → Except (FlowError α) (List (List Int))
  | [] => .ok []
  | instr :: rest => do
    let next ← fn.successors index instr
    return next :: (← fn.successorsFrom (index + 1) rest)

/-- The successors of all the instructions. -/
def allSuccessors (fn : Function α) : Except (FlowError α) (List (List Int)) :=
  fn.successorsFrom 0 fn.body

/-- The node of an instruction with the given successors. -/
def node (fn : Function α) (instr : Instr α) (next : List Int) :
    Except (FlowError α) Liveness.Node := do
  return ⟨instr.uses, instr.defs, ← next.mapM fn.position⟩

/-- The nodes of all the instructions.  Every jump must go to a label of the
function, and no label may stand beyond its end. -/
def nodes (fn : Function α) : Except (FlowError α) (List Liveness.Node) := do
  let next ← fn.allSuccessors
  match fn.labels.find? fun l => (fn.body.length : Int) < l.index with
  | some l => throw (.labelOutOfRange l.name l.note)
  | none => (fn.body.zip next).mapM fun x => fn.node x.1 x.2

/-- The indices of the calls. -/
def callIndices (fn : Function α) : List Nat :=
  (fn.body.zipIdx.filter fun x => x.1.isCall).map Prod.snd

/-- The liveness of a function. -/
def liveness (fn : Function α) : Except (FlowError α) Liveness := do
  let nodes ← fn.nodes
  return ⟨Liveness.table nodes, fn.callIndices⟩

end Function

end Vapor
