/-
Vapor/Proofs/Liveness/Sweep.lean

The sweeps over the nodes of a function come to an end, and what they leave is
exactly what can be read.

`ReadWithin nodes x k i` says that `x` is read on some path of fewer than `k`
steps from node `i` and written nowhere before.  A sweep only adds variables for
which such a path exists (`Sound.sweep`), and if the sets before it account for
all paths of fewer than `k` steps, then the new ones account for all paths of
fewer than `k + 1` steps (`Complete.sweep`).  Hence sets that a sweep leaves as
they are account for all paths (`Settles.exact`).  That such sets are reached
needs a bound on the paths: among `n` nodes, a variable that is read on any path
is read on a path of fewer than `n` steps (`ReadWithin.bound`).
-/
import Mathlib.Data.Finset.Card
import Mathlib.Logic.Function.Iterate
import Vapor.Liveness.Basic

namespace Vapor.Liveness

/-! ### The sets of one node -/

theorem Node.mem_liveOut {node : Node} {f : Nat → Names} {x : String} :
    x ∈ node.liveOut f ↔ ∃ s ∈ node.next, x ∈ f s := by
  unfold Node.liveOut
  induction node.next with
  | nil => simp
  | cons s next ih => simp [ih]

theorem Node.mem_liveIn {node : Node} {out : Names} {x : String} :
    x ∈ node.liveIn out ↔ x ∈ node.uses ∨ x ∈ out ∧ x ∉ node.defs := by
  simp [Node.liveIn]

theorem Node.sorted_liveOut (node : Node) (f : Nat → Names) :
    Names.Sorted (node.liveOut f) := by
  unfold Node.liveOut
  induction node.next with
  | nil => exact .nil
  | cons s next ih => exact ih.union

/-- A node together with what is live after it, given what is live before each node. -/
def Node.sets (node : Node) (f : Nat → Names) : Sets :=
  ⟨node.liveIn (node.liveOut f), node.liveOut f⟩

/-- The sets of a node depend on the members of the sets before the nodes only. -/
theorem Node.sets_congr (node : Node) {f g : Nat → Names} (h : ∀ s x, x ∈ f s ↔ x ∈ g s) :
    node.sets f = node.sets g := by
  have hout : node.liveOut f = node.liveOut g := by
    refine (node.sorted_liveOut f).ext (node.sorted_liveOut g) fun x => ?_
    simp only [Node.mem_liveOut, h]
  rw [Node.sets, Node.sets, hout]

/-! ### One sweep -/

theorem liveInAt_cons_succ (a : Sets) (sets : List Sets) (i : Nat) :
    liveInAt (a :: sets) (i + 1) = liveInAt sets i := rfl

@[simp] theorem length_sweep (old : List Sets) (index : Nat) (nodes : List Node) :
    (sweep old index nodes).length = nodes.length := by
  induction nodes generalizing index with
  | nil => rfl
  | cons node nodes ih => simp [sweep, ih]

/-- What a sweep from an index on finds for the `j`-th node after it. -/
theorem getElem?_sweep_from (old : List Sets) (index : Nat) (nodes : List Node) (j : Nat) :
    (sweep old index nodes)[j]? = (nodes[j]?).map fun node => node.sets fun s =>
      if index + j < s then liveInAt (sweep old index nodes) (s - index) else liveInAt old s := by
  induction nodes generalizing index j with
  | nil => rfl
  | cons node nodes ih =>
    -- behind the first node the sets have moved by one place
    have hshift : ∀ s, index < s →
        liveInAt (sweep old index (node :: nodes)) (s - index)
          = liveInAt (sweep old (index + 1) nodes) (s - index - 1) := by
      intro s hs
      obtain ⟨d, rfl⟩ : ∃ d, s = index + (d + 1) := ⟨s - index - 1, by omega⟩
      rw [show index + (d + 1) - index = d + 1 by omega]
      exact liveInAt_cons_succ _ _ _
    cases j with
    | zero =>
      refine congrArg some (congrArg node.sets (funext fun s => ?_))
      by_cases hs : index < s
      · rw [if_pos hs, if_pos (by simpa using hs), hshift s hs]
      · rw [if_neg hs, if_neg (by simpa using hs)]
    | succ j =>
      show (sweep old (index + 1) nodes)[j]? = _
      rw [ih (index + 1) j]
      show _ = (nodes[j]?).map _
      congr 1
      funext node'
      refine congrArg node'.sets (funext fun s => ?_)
      by_cases hs : index + 1 + j < s
      · rw [if_pos hs, if_pos (by omega), hshift s (by omega), Nat.sub_sub]
      · rw [if_neg hs, if_neg (by omega)]

/-- What a sweep over all nodes finds: a node takes the new sets of later nodes
and the old ones of itself and earlier nodes. -/
theorem getElem?_sweep (old : List Sets) (nodes : List Node) (i : Nat) :
    (sweep old 0 nodes)[i]? = (nodes[i]?).map fun node => node.sets fun s =>
      if i < s then liveInAt (sweep old 0 nodes) s else liveInAt old s := by
  simpa using getElem?_sweep_from old 0 nodes i

theorem mem_liveInAt_sweep {old : List Sets} {nodes : List Node} {i : Nat} {x : String} :
    x ∈ liveInAt (sweep old 0 nodes) i ↔ ∃ node, nodes[i]? = some node ∧
      (x ∈ node.uses ∨ x ∉ node.defs ∧ ∃ s ∈ node.next,
        x ∈ if i < s then liveInAt (sweep old 0 nodes) s else liveInAt old s) := by
  rw [liveInAt, getElem?_sweep]
  rcases nodes[i]? with - | node
  · simp
  · simp [Node.sets, Node.mem_liveIn, Node.mem_liveOut, and_comm]

/-! ### Reads on paths -/

/-- The variable is read on a path of fewer than the given number of steps from
a node, and not written before. -/
def ReadWithin (nodes : List Node) (x : String) : Nat → Nat → Prop
  | 0, _ => False
  | k + 1, i => ∃ node, nodes[i]? = some node ∧
      (x ∈ node.uses ∨ x ∉ node.defs ∧ ∃ s ∈ node.next, ReadWithin nodes x k s)

namespace ReadWithin

variable {nodes : List Node} {x : String}

theorem succ {k i : Nat} (h : ReadWithin nodes x k i) : ReadWithin nodes x (k + 1) i := by
  induction k generalizing i with
  | zero => exact h.elim
  | succ k ih =>
    obtain ⟨node, hnode, huse | ⟨hdef, s, hs, hread⟩⟩ := h
    · exact ⟨node, hnode, .inl huse⟩
    · exact ⟨node, hnode, .inr ⟨hdef, s, hs, ih hread⟩⟩

theorem mono {k m i : Nat} (h : ReadWithin nodes x k i) (hkm : k ≤ m) :
    ReadWithin nodes x m i := by
  induction hkm with
  | refl => exact h
  | step _ ih => exact ih.succ

theorem lt_length {k i : Nat} (h : ReadWithin nodes x k i) : i < nodes.length := by
  cases k with
  | zero => exact h.elim
  | succ k =>
    obtain ⟨node, hnode, -⟩ := h
    exact (List.getElem?_eq_some_iff.mp hnode).1

/-- If one more step reaches no further read, then neither does any number of steps. -/
theorem of_stable {k : Nat} (hk : ∀ i, ReadWithin nodes x (k + 1) i → ReadWithin nodes x k i)
    {m i : Nat} (h : ReadWithin nodes x m i) : ReadWithin nodes x k i := by
  induction m generalizing i with
  | zero => exact h.elim
  | succ m ih =>
    obtain ⟨node, hnode, huse | ⟨hdef, s, hs, hread⟩⟩ := h
    · exact hk i ⟨node, hnode, .inl huse⟩
    · exact hk i ⟨node, hnode, .inr ⟨hdef, s, hs, ih hread⟩⟩

open Classical in
/-- The nodes from which the variable is read within so many steps. -/
noncomputable def origins (nodes : List Node) (x : String) (k : Nat) : Finset Nat :=
  (Finset.range nodes.length).filter (ReadWithin nodes x k)

theorem mem_origins {k i : Nat} : i ∈ origins nodes x k ↔ ReadWithin nodes x k i := by
  classical
  rw [origins, Finset.mem_filter, Finset.mem_range]
  exact ⟨fun h => h.2, fun h => ⟨h.lt_length, h⟩⟩

/-- As long as more steps reach more reads, there are more origins than steps. -/
theorem card_origins {k i : Nat} (h : ReadWithin nodes x (k + 1) i)
    (hn : ¬ReadWithin nodes x k i) : k < (origins nodes x (k + 1)).card := by
  induction k generalizing i with
  | zero => exact Finset.card_pos.mpr ⟨i, mem_origins.mpr h⟩
  | succ k ih =>
    -- the step before reached something new as well
    obtain ⟨j, hj, hjn⟩ : ∃ j, ReadWithin nodes x (k + 1) j ∧ ¬ReadWithin nodes x k j := by
      by_contra hc
      push Not at hc
      exact hn (of_stable hc h).succ
    have hlt : (origins nodes x (k + 1)).card < (origins nodes x (k + 2)).card := by
      refine Finset.card_lt_card ⟨fun a ha => ?_, fun hsub => ?_⟩
      · exact mem_origins.mpr (mem_origins.mp ha).succ
      · exact hn (mem_origins.mp (hsub (mem_origins.mpr h)))
    exact Nat.lt_of_le_of_lt (ih hj hjn) hlt

/-- **A read on any path is a read on a short path.** -/
theorem bound {m i : Nat} (h : ReadWithin nodes x m i) : ReadWithin nodes x nodes.length i := by
  refine of_stable (fun j hj => ?_) h
  by_contra hn
  have hcard := card_origins hj hn
  have hle : (origins nodes x (nodes.length + 1)).card ≤ nodes.length := by
    have hsub : origins nodes x (nodes.length + 1) ⊆ Finset.range nodes.length :=
      fun a ha => Finset.mem_range.mpr (mem_origins.mp ha).lt_length
    simpa using Finset.card_le_card hsub
  omega

end ReadWithin

/-! ### What a sweep preserves -/

/-- Every variable in the sets is read on some path. -/
def Sound (nodes : List Node) (sets : List Sets) : Prop :=
  ∀ x i, x ∈ liveInAt sets i → ∃ k, ReadWithin nodes x k i

/-- The sets hold every variable that is read on a path of fewer than `k` steps. -/
def Complete (nodes : List Node) (k : Nat) (sets : List Sets) : Prop :=
  ∀ x i, ReadWithin nodes x k i → x ∈ liveInAt sets i

variable {nodes : List Node}

theorem Sound.sweep {old : List Sets} (h : Sound nodes old) :
    Sound nodes (sweep old 0 nodes) := by
  intro x i
  -- downwards from the last node, as the sweep goes
  induction hd : nodes.length - i using Nat.strong_induction_on generalizing i with
  | _ d ih =>
    intro hx
    obtain ⟨node, hnode, huse | ⟨hdef, s, hs, hxs⟩⟩ := mem_liveInAt_sweep.mp hx
    · exact ⟨1, node, hnode, .inl huse⟩
    · have hi : i < nodes.length := (List.getElem?_eq_some_iff.mp hnode).1
      obtain ⟨k, hk⟩ : ∃ k, ReadWithin nodes x k s := by
        by_cases his : i < s
        · rw [if_pos his] at hxs
          exact ih (nodes.length - s) (by omega) s rfl hxs
        · rw [if_neg his] at hxs
          exact h x s hxs
      exact ⟨k + 1, node, hnode, .inr ⟨hdef, s, hs, hk⟩⟩

theorem Complete.sweep {old : List Sets} {k : Nat} (h : Complete nodes k old) :
    Complete nodes (k + 1) (sweep old 0 nodes) := by
  intro x i
  induction hd : nodes.length - i using Nat.strong_induction_on generalizing i with
  | _ d ih =>
    rintro ⟨node, hnode, huse | ⟨hdef, s, hs, hread⟩⟩
    · exact mem_liveInAt_sweep.mpr ⟨node, hnode, .inl huse⟩
    · have hi : i < nodes.length := (List.getElem?_eq_some_iff.mp hnode).1
      refine mem_liveInAt_sweep.mpr ⟨node, hnode, .inr ⟨hdef, s, hs, ?_⟩⟩
      by_cases his : i < s
      · rw [if_pos his]
        exact ih (nodes.length - s) (by omega) s rfl hread.succ
      · rw [if_neg his]
        exact h x s hread

/-! ### The loop -/

/-- The loop without a bound on its rounds: it sweeps until a sweep changes nothing. -/
inductive Settles (nodes : List Node) : List Sets → List Sets → Prop
  | done {sets} : sweep sets 0 nodes = sets → Settles nodes sets sets
  | again {sets final} : sweep sets 0 nodes ≠ sets → Settles nodes (sweep sets 0 nodes) final →
      Settles nodes sets final

/-- If the last sweep allowed changes nothing, then the bound is never felt. -/
theorem settles_settle {rounds : Nat} {sets : List Sets}
    (h : sweep ((sweep · 0 nodes)^[rounds] sets) 0 nodes = (sweep · 0 nodes)^[rounds] sets) :
    Settles nodes sets (settle nodes rounds sets) := by
  induction rounds generalizing sets with
  | zero => exact .done h
  | succ rounds ih =>
    rw [settle]
    split
    · rename_i heq
      exact .done heq
    · rename_i hne
      exact .again hne (ih h)

theorem Settles.fixed {sets final : List Sets} (h : Settles nodes sets final) :
    sweep final 0 nodes = final := by
  induction h with
  | done heq => exact heq
  | again _ _ ih => exact ih

theorem Settles.sound {sets final : List Sets} (h : Settles nodes sets final)
    (hs : Sound nodes sets) : Sound nodes final := by
  induction h with
  | done _ => exact hs
  | again _ _ ih => exact ih hs.sweep

/-- Sets that a sweep leaves as they are account for paths of any length. -/
theorem complete_of_fixed {sets : List Sets} (h : sweep sets 0 nodes = sets) (k : Nat) :
    Complete nodes k sets := by
  induction k with
  | zero => exact fun x i hread => hread.elim
  | succ k ih => exact h ▸ ih.sweep

theorem liveInAt_unswept (i : Nat) : liveInAt (unswept nodes) i = [] := by
  rw [liveInAt, unswept, List.getElem?_map, Option.map_map]
  rcases nodes[i]? with - | node <;> rfl

theorem sound_unswept : Sound nodes (unswept nodes) := by
  intro x i hx
  rw [liveInAt_unswept] at hx
  cases hx

/-- **Once the loop has ended, the sets are exactly what can be read.** -/
theorem Settles.exact {final : List Sets} (h : Settles nodes (unswept nodes) final)
    {x : String} {i : Nat} : x ∈ liveInAt final i ↔ ∃ k, ReadWithin nodes x k i :=
  ⟨fun hx => h.sound sound_unswept x i hx, fun ⟨k, hk⟩ => complete_of_fixed h.fixed k x i hk⟩

/-! ### The loop ends -/

theorem sound_iterate (k : Nat) : Sound nodes ((sweep · 0 nodes)^[k] (unswept nodes)) := by
  induction k with
  | zero => exact sound_unswept
  | succ k ih =>
    rw [Function.iterate_succ_apply']
    exact ih.sweep

theorem complete_iterate (k : Nat) :
    Complete nodes k ((sweep · 0 nodes)^[k] (unswept nodes)) := by
  induction k with
  | zero => exact fun x i hread => hread.elim
  | succ k ih =>
    rw [Function.iterate_succ_apply']
    exact ih.sweep

/-- After as many sweeps as there are nodes, the sets before the nodes are right. -/
theorem mem_liveInAt_iterate {k : Nat} (hk : nodes.length ≤ k) {x : String} {i : Nat} :
    x ∈ liveInAt ((sweep · 0 nodes)^[k] (unswept nodes)) i ↔
      ReadWithin nodes x nodes.length i := by
  constructor
  · intro hx
    obtain ⟨m, hm⟩ := sound_iterate k x i hx
    exact hm.bound
  · intro hread
    exact complete_iterate k x i (hread.mono hk)

/-- Sweeping sets with the same members before all nodes gives the same sets. -/
theorem sweep_congr {a b : List Sets}
    (h : ∀ x i, x ∈ liveInAt a i ↔ x ∈ liveInAt b i)
    (h' : ∀ x i, x ∈ liveInAt (sweep a 0 nodes) i ↔ x ∈ liveInAt (sweep b 0 nodes) i) :
    sweep a 0 nodes = sweep b 0 nodes := by
  refine List.ext_getElem? fun i => ?_
  rw [getElem?_sweep, getElem?_sweep]
  congr 1
  funext node
  refine node.sets_congr fun s x => ?_
  split
  · exact h' x s
  · exact h x s

/-- **The loop ends**: one sweep more than there are nodes is enough for the sets
before and after all nodes to stay as they are. -/
theorem settles_settled (nodes : List Node) :
    Settles nodes (unswept nodes) (settled nodes) := by
  refine settles_settle ?_
  have hstep := fun k => Function.iterate_succ_apply' (sweep · 0 nodes) k (unswept nodes)
  rw [hstep]
  refine sweep_congr (fun x i => ?_) fun x i => ?_
  · rw [← hstep, mem_liveInAt_iterate (Nat.le_succ _), mem_liveInAt_iterate (Nat.le_refl _)]
  · rw [← hstep, ← hstep, mem_liveInAt_iterate (by omega), mem_liveInAt_iterate (by omega)]

/-! ### Rows -/

/-- What the loop leaves for a node satisfies the equations of liveness. -/
theorem getElem?_settled (nodes : List Node) (i : Nat) :
    (settled nodes)[i]? = (nodes[i]?).map fun node => node.sets (liveInAt (settled nodes)) := by
  have hget := getElem?_sweep (settled nodes) nodes i
  rw [(settles_settled nodes).fixed] at hget
  rw [hget]
  congr 1
  funext node
  exact congrArg node.sets (funext fun s => ite_self _)

/-- What is live before and after the instruction of a row. -/
def Row.sets (row : Row) : Sets :=
  ⟨row.liveIn, row.liveOut⟩

/-- The row of a node, given what is live before each node. -/
def Node.row (node : Node) (f : Nat → Names) : Row :=
  ⟨node.uses, node.defs, (node.sets f).liveIn, (node.sets f).liveOut⟩

theorem getElem?_table (nodes : List Node) (i : Nat) :
    (table nodes)[i]? = (nodes[i]?).map fun node => node.row (liveInAt (settled nodes)) := by
  rw [table, List.getElem?_zipWith', getElem?_settled]
  cases nodes[i]? <;> rfl

@[simp] theorem length_table (nodes : List Node) : (table nodes).length = nodes.length := by
  have hlen : (settled nodes).length = nodes.length := by
    rw [← (settles_settled nodes).fixed, length_sweep]
  rw [table, List.length_zipWith, hlen, Nat.min_self]

/-- The rows hold the sets that the loop leaves. -/
theorem map_sets_table (nodes : List Node) : (table nodes).map Row.sets = settled nodes := by
  refine List.ext_getElem? fun i => ?_
  rw [List.getElem?_map, getElem?_table, getElem?_settled, Option.map_map]
  rfl

end Vapor.Liveness
