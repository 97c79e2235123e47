/-
Vapor/Proofs/Liveness/Exact.lean

Liveness is exact: a variable is live before an instruction if and only if there
is a path from it along which the variable is read before it is written, and it
is live after an instruction if and only if it is live before some successor.  So
the sets are the least solution of the equations of liveness, whatever loops,
unreachable instructions or jumps to the end the function has.

The sweeps work on nodes.  In a function that has been read, the successors of an
instruction are indices of instructions, and the node of an instruction has the
same variables and the same successors (`nodes_spec`); what holds of the sweeps
is thereby carried over to the function.
-/
import Vapor.Proofs.Liveness.Sweep
import Vapor.Proofs.Parsed

namespace Vapor

variable {α : Type}

/-! ### Lists of results -/

section MapM

variable {ε β γ : Type} {f : β → Except ε γ}

theorem bind_eq_ok {x : Except ε β} {g : β → Except ε γ} {c : γ} :
    (x >>= g) = .ok c ↔ ∃ b, x = .ok b ∧ g b = .ok c := by
  cases x with
  | error e => simp [bind, Except.bind]
  | ok b => simp [bind, Except.bind]

theorem mapM_eq_ok {xs : List β} {ys : List γ} :
    xs.mapM f = .ok ys ↔ List.Forall₂ (fun x y => f x = .ok y) xs ys := by
  induction xs generalizing ys with
  | nil =>
    rw [List.mapM_nil, List.forall₂_nil_left_iff]
    exact ⟨fun h => (Except.ok.inj h).symm, fun h => h ▸ rfl⟩
  | cons x xs ih =>
    rw [List.mapM_cons, bind_eq_ok, List.forall₂_cons_left_iff]
    constructor
    · rintro ⟨y, hy, hrest⟩
      obtain ⟨ys', hys, heq⟩ := bind_eq_ok.mp hrest
      exact ⟨y, ys', hy, ih.mp hys, (Except.ok.inj heq).symm⟩
    · rintro ⟨y, ys', hy, hys, rfl⟩
      exact ⟨y, hy, bind_eq_ok.mpr ⟨ys', ih.mpr hys, rfl⟩⟩

theorem exists_mapM_eq_ok {xs : List β} (h : ∀ x ∈ xs, ∃ y, f x = .ok y) :
    ∃ ys, xs.mapM f = .ok ys := by
  induction xs with
  | nil => exact ⟨[], rfl⟩
  | cons x xs ih =>
    obtain ⟨y, hy⟩ := h x List.mem_cons_self
    obtain ⟨ys, hys⟩ := ih fun a ha => h a (List.mem_cons_of_mem _ ha)
    exact ⟨y :: ys, mapM_eq_ok.mpr (.cons hy (mapM_eq_ok.mp hys))⟩

end MapM

/-! ### Control -/

/-- The label that an instruction may jump to. -/
def Instr.target? : Instr α → Option (Ref α)
  | .branch _ _ label _ => some label
  | .goto label _ => some label
  | _ => none

/-- The variable that an instruction writes, if it writes one. -/
def Instr.dest? : Instr α → Option String
  | .assign dest _ _ => some dest.name
  | .call dest _ _ _ => dest.map Ref.name
  | .apply dest _ _ _ => dest.map Ref.name
  | .load dest _ _ => some dest.name
  | _ => none

theorem Instr.mem_defs {instr : Instr α} {x : String} : x ∈ instr.defs ↔ instr.dest? = some x := by
  cases instr <;> simp [Instr.defs, Instr.dest?, eq_comm]

namespace Function

/-- The variables that the instruction with this index reads. -/
def usesAt (fn : Function α) (i : Nat) : Names :=
  (fn.body[i]?.map Instr.uses).getD []

/-- The variables that the instruction with this index writes. -/
def defsAt (fn : Function α) (i : Nat) : Names :=
  (fn.body[i]?.map Instr.defs).getD []

/-- Control may go from one instruction to another. -/
def Flows (fn : Function α) (i j : Nat) : Prop :=
  ∃ instr next, fn.body[i]? = some instr ∧ fn.successors i instr = .ok next ∧ (j : Int) ∈ next

/-- Every jump goes to a label of the function. -/
def JumpsInside (fn : Function α) : Prop :=
  ∀ instr ∈ fn.body, ∀ label ∈ instr.target?, (fn.indexOf? label.name).isSome

instance (fn : Function α) : Decidable fn.JumpsInside :=
  inferInstanceAs (Decidable (∀ instr ∈ fn.body, ∀ label ∈ instr.target?, _))

variable {fn : Function α}

theorem usesAt_eq {i : Nat} {instr : Instr α} (h : fn.body[i]? = some instr) :
    fn.usesAt i = instr.uses := by
  rw [usesAt, h]
  rfl

theorem defsAt_eq {i : Nat} {instr : Instr α} (h : fn.body[i]? = some instr) :
    fn.defsAt i = instr.defs := by
  rw [defsAt, h]
  rfl

theorem usesAt_eq_nil {i : Nat} (h : fn.body[i]? = none) : fn.usesAt i = [] := by
  rw [usesAt, h]
  rfl

theorem indexOf?_spec {name : String} {index : Int} (h : fn.indexOf? name = some index) :
    ∃ l ∈ fn.labels, l.name = name ∧ l.index = index := by
  obtain ⟨l, hl, rfl⟩ := Option.map_eq_some_iff.mp h
  exact ⟨l, List.mem_of_find?_eq_some hl, by simpa using List.find?_some hl, rfl⟩

/-- In a well-formed function a label stands for the index of an instruction, or
for the end. -/
theorem WellFormed.indexOf? (hwf : fn.WellFormed) {name : String} {index : Int}
    (h : fn.indexOf? name = some index) : ∃ i : Nat, index = i ∧ i ≤ fn.body.length := by
  obtain ⟨l, hl, -, rfl⟩ := indexOf?_spec h
  exact hwf.label_index l hl

theorem mem_within {index s : Int} :
    s ∈ fn.within index ↔ s = index ∧ index < fn.body.length := by
  unfold within
  split <;> simp_all

/-- Where a jump to a label of the function goes. -/
theorem target_eq_ok {label : Ref α} {index : Int} :
    fn.target label = .ok index ↔ fn.indexOf? label.name = some index := by
  unfold target
  split <;> simp_all

/-- The successors of an instruction: the next one, unless the instruction always
jumps or returns, and the target of a jump; what lies beyond the end is left out. -/
theorem successors_spec {i : Nat} {instr : Instr α} {next : List Int}
    (h : fn.successors i instr = .ok next) {s : Int} (hs : s ∈ next) :
    (s = i + 1 ∨ ∃ label, instr.target? = some label ∧ fn.indexOf? label.name = some s) ∧
      s < fn.body.length := by
  unfold successors at h
  split at h
  · obtain rfl := Except.ok.inj h
    cases hs
  · rename_i label note
    obtain ⟨index, hindex, heq⟩ := bind_eq_ok.mp h
    obtain rfl := Except.ok.inj heq
    obtain ⟨rfl, hlt⟩ := mem_within.mp hs
    exact ⟨.inr ⟨label, rfl, target_eq_ok.mp hindex⟩, hlt⟩
  · rename_i test positive label note
    obtain ⟨index, hindex, heq⟩ := bind_eq_ok.mp h
    obtain rfl := Except.ok.inj heq
    rcases List.mem_append.mp (List.mem_eraseDups.mp hs) with hs | hs
    · obtain ⟨rfl, hlt⟩ := mem_within.mp hs
      exact ⟨.inl rfl, hlt⟩
    · obtain ⟨rfl, hlt⟩ := mem_within.mp hs
      exact ⟨.inr ⟨label, rfl, target_eq_ok.mp hindex⟩, hlt⟩
  · obtain rfl := Except.ok.inj h
    obtain ⟨rfl, hlt⟩ := mem_within.mp hs
    exact ⟨.inl rfl, hlt⟩

theorem exists_successors {instr : Instr α}
    (htarget : ∀ label ∈ instr.target?, (fn.indexOf? label.name).isSome) (i : Nat) :
    ∃ next, fn.successors i instr = .ok next := by
  unfold successors
  split
  · exact ⟨_, rfl⟩
  · obtain ⟨index, hindex⟩ := Option.isSome_iff_exists.mp (htarget _ rfl)
    exact ⟨_, bind_eq_ok.mpr ⟨index, target_eq_ok.mpr hindex, rfl⟩⟩
  · obtain ⟨index, hindex⟩ := Option.isSome_iff_exists.mp (htarget _ rfl)
    exact ⟨_, bind_eq_ok.mpr ⟨index, target_eq_ok.mpr hindex, rfl⟩⟩
  · exact ⟨_, rfl⟩

/-- In a well-formed function the successors of an instruction are instructions. -/
theorem WellFormed.successors (hwf : fn.WellFormed) {i : Nat} {instr : Instr α}
    {next : List Int} (h : fn.successors i instr = .ok next) :
    ∀ s ∈ next, ∃ j : Nat, s = j ∧ j < fn.body.length := by
  intro s hs
  obtain ⟨rfl | ⟨label, -, hindex⟩, hlt⟩ := successors_spec h hs
  · exact ⟨i + 1, rfl, by omega⟩
  · obtain ⟨j, rfl, -⟩ := hwf.indexOf? hindex
    exact ⟨j, rfl, by omega⟩

/-! ### Nodes -/

theorem successorsFrom_eq_ok {index : Nat} {instrs : List (Instr α)} {nexts : List (List Int)}
    (h : fn.successorsFrom index instrs = .ok nexts) :
    List.Forall₂ (fun x next => fn.successors x.2 x.1 = .ok next) (instrs.zipIdx index) nexts := by
  induction instrs generalizing index nexts with
  | nil =>
    obtain rfl := Except.ok.inj h
    exact .nil
  | cons instr rest ih =>
    obtain ⟨next, hnext, h⟩ := bind_eq_ok.mp h
    obtain ⟨nexts', hrest, heq⟩ := bind_eq_ok.mp h
    obtain rfl := Except.ok.inj heq
    exact .cons hnext (ih hrest)

theorem exists_successorsFrom (hjumps : fn.JumpsInside) {instrs : List (Instr α)}
    (hsub : ∀ instr ∈ instrs, instr ∈ fn.body) (index : Nat) :
    ∃ nexts, fn.successorsFrom index instrs = .ok nexts := by
  induction instrs generalizing index with
  | nil => exact ⟨[], rfl⟩
  | cons instr rest ih =>
    obtain ⟨next, hnext⟩ := exists_successors (hjumps _ (hsub instr List.mem_cons_self)) index
    obtain ⟨nexts, hnexts⟩ := ih (fun a ha => hsub a (List.mem_cons_of_mem _ ha)) (index + 1)
    exact ⟨next :: nexts, bind_eq_ok.mpr ⟨next, hnext, bind_eq_ok.mpr ⟨nexts, hnexts, rfl⟩⟩⟩

theorem position_ofNat (j : Nat) : fn.position j = .ok j := by
  simp [position]

/-- The positions of indices that are not negative are the indices themselves. -/
theorem mapM_position {next : List Int} {js : List Nat} (h : next.mapM fn.position = .ok js)
    (hnext : ∀ s ∈ next, ∃ j : Nat, s = j) (j : Nat) : j ∈ js ↔ (j : Int) ∈ next := by
  have hall := mapM_eq_ok.mp h
  clear h
  induction hall with
  | nil => simp
  | @cons s k next js hs _ ih =>
    obtain ⟨i, rfl⟩ := hnext s List.mem_cons_self
    obtain rfl : i = k := Except.ok.inj ((position_ofNat i).symm.trans hs)
    have hrest : j ∈ js ↔ (j : Int) ∈ next :=
      ih fun s' hs' => hnext s' (List.mem_cons_of_mem _ hs')
    rw [List.mem_cons, List.mem_cons]
    exact or_congr Int.ofNat_inj.symm hrest

/-- The nodes of the instructions from an index on, given their successors. -/
theorem forall₂_node {index : Nat} {instrs : List (Instr α)} {nexts : List (List Int)}
    {nodes : List Liveness.Node}
    (hnexts : List.Forall₂ (fun x next => fn.successors x.2 x.1 = .ok next)
      (instrs.zipIdx index) nexts)
    (hnodes : List.Forall₂ (fun x node => fn.node x.1 x.2 = .ok node) (instrs.zip nexts) nodes) :
    List.Forall₂ (fun x node => ∃ next, fn.successors x.2 x.1 = .ok next ∧
      fn.node x.1 next = .ok node) (instrs.zipIdx index) nodes := by
  induction instrs generalizing index nexts nodes with
  | nil =>
    cases hnodes
    exact .nil
  | cons instr rest ih =>
    cases hnexts with
    | cons hnext hnexts =>
      cases hnodes with
      | cons hnode hnodes => exact .cons ⟨_, hnext, hnode⟩ (ih hnexts hnodes)

theorem nodes_eq_ok {nodes : List Liveness.Node} (h : fn.nodes = .ok nodes) :
    List.Forall₂ (fun x node => ∃ next, fn.successors x.2 x.1 = .ok next ∧
      fn.node x.1 next = .ok node) fn.body.zipIdx nodes := by
  obtain ⟨nexts, hnexts, h⟩ := bind_eq_ok.mp h
  split at h
  · cases h
  · exact forall₂_node (successorsFrom_eq_ok hnexts) (mapM_eq_ok.mp h)

theorem length_nodes {nodes : List Liveness.Node} (h : fn.nodes = .ok nodes) :
    nodes.length = fn.body.length := by
  simpa using (nodes_eq_ok h).length_eq.symm

/-- The node of an instruction has its variables and its successors. -/
theorem nodes_spec (hwf : fn.WellFormed) {nodes : List Liveness.Node}
    (h : fn.nodes = .ok nodes) {i : Nat} {instr : Instr α} (hi : fn.body[i]? = some instr) :
    ∃ node, nodes[i]? = some node ∧ node.uses = instr.uses ∧ node.defs = instr.defs ∧
      ∀ j, j ∈ node.next ↔ fn.Flows i j := by
  obtain ⟨hlt, -⟩ := List.getElem?_eq_some_iff.mp hi
  have hlt' : i < nodes.length := by rwa [length_nodes h]
  refine ⟨nodes[i], List.getElem?_eq_getElem hlt', ?_⟩
  obtain ⟨next, hnext, hnode⟩ := (nodes_eq_ok h).get (by simpa using hlt) hlt'
  simp only [List.get_eq_getElem, List.getElem_zipIdx, Nat.zero_add] at hnext hnode
  obtain rfl : fn.body[i] = instr := by
    rw [List.getElem?_eq_getElem hlt] at hi
    exact Option.some.inj hi
  obtain ⟨js, hjs, heq⟩ := bind_eq_ok.mp hnode
  rw [← Except.ok.inj heq]
  refine ⟨rfl, rfl, fun j => ?_⟩
  have hnat : ∀ s ∈ next, ∃ j : Nat, s = j := fun s hs =>
    (hwf.successors hnext s hs).imp fun _ h => h.1
  rw [mapM_position hjs hnat]
  constructor
  · exact fun hj => ⟨fn.body[i], next, List.getElem?_eq_getElem hlt, hnext, hj⟩
  · rintro ⟨instr', next', hi', hnext', hj⟩
    rw [List.getElem?_eq_getElem hlt] at hi'
    obtain rfl := Option.some.inj hi'
    rw [hnext] at hnext'
    obtain rfl := Except.ok.inj hnext'
    exact hj

/-- If every jump goes to a label, then all the nodes exist. -/
theorem exists_nodes (hwf : fn.WellFormed) (hjumps : fn.JumpsInside) :
    ∃ nodes, fn.nodes = .ok nodes := by
  obtain ⟨nexts, hnexts⟩ := exists_successorsFrom hjumps (fun _ h => h) 0
  have hrange : (fn.labels.find? fun l => (fn.body.length : Int) < l.index) = none := by
    refine List.find?_eq_none.mpr fun l hl => ?_
    obtain ⟨i, hi, hle⟩ := hwf.label_index l hl
    simp only [hi, decide_eq_true_eq]
    omega
  obtain ⟨nodes, hnodes⟩ : ∃ nodes, ((fn.body.zip nexts).mapM fun x => fn.node x.1 x.2) = .ok nodes := by
    refine exists_mapM_eq_ok fun x hx => ?_
    obtain ⟨i, hi, rfl⟩ := List.mem_iff_getElem.mp hx
    rw [List.length_zip] at hi
    have hnext := (successorsFrom_eq_ok hnexts).get (i := i) (by simp; omega) (by omega)
    simp only [List.get_eq_getElem, List.getElem_zipIdx, Nat.zero_add] at hnext
    obtain ⟨js, hjs⟩ : ∃ js, nexts[i].mapM fn.position = .ok js := by
      refine exists_mapM_eq_ok fun s hs => ?_
      obtain ⟨j, rfl, -⟩ := hwf.successors hnext s hs
      exact ⟨j, position_ofNat j⟩
    exact ⟨_, bind_eq_ok.mpr ⟨js, by simpa using hjs, rfl⟩⟩
  refine ⟨nodes, bind_eq_ok.mpr ⟨nexts, hnexts, ?_⟩⟩
  rw [hrange]
  exact hnodes

/-! ### Rows -/

variable {live : Liveness}

theorem liveness_eq_ok (h : fn.liveness = .ok live) :
    ∃ nodes, fn.nodes = .ok nodes ∧ live = ⟨Liveness.table nodes, fn.callIndices⟩ := by
  obtain ⟨nodes, hnodes, heq⟩ := bind_eq_ok.mp h
  exact ⟨nodes, hnodes, (Except.ok.inj heq).symm⟩

theorem liveIn_table (nodes : List Liveness.Node) (calls : List Nat) (i : Nat) :
    Liveness.liveIn ⟨Liveness.table nodes, calls⟩ i
      = Liveness.liveInAt (Liveness.settled nodes) i := by
  rw [Liveness.liveIn, Liveness.liveInAt, ← Liveness.map_sets_table, List.getElem?_map,
    Option.map_map]
  rfl

/-- A row has the variables of its instruction. -/
theorem getElem?_rows (hwf : fn.WellFormed) (h : fn.liveness = .ok live) (i : Nat) :
    live.rows[i]? = (fn.body[i]?).map fun instr =>
      ⟨instr.uses, instr.defs, live.liveIn i, live.liveOut i⟩ := by
  obtain ⟨nodes, hnodes, rfl⟩ := liveness_eq_ok h
  rcases hi : fn.body[i]? with - | instr
  · rw [List.getElem?_eq_none_iff, ← length_nodes hnodes] at hi
    exact List.getElem?_eq_none (by simpa using hi)
  · obtain ⟨node, hnode, huses, hdefs, -⟩ := nodes_spec hwf hnodes hi
    have hrow := Liveness.getElem?_table nodes i
    rw [hnode] at hrow
    rw [Liveness.liveIn, Liveness.liveOut, hrow]
    simp only [Option.map_some, ← huses, ← hdefs]
    rfl

theorem length_rows (h : fn.liveness = .ok live) : live.rows.length = fn.body.length := by
  obtain ⟨nodes, hnodes, rfl⟩ := liveness_eq_ok h
  rw [Liveness.length_table, length_nodes hnodes]

/-! ### The equations of liveness -/

/-- Sets of variables, before and after each instruction, that satisfy the
equations of liveness. -/
structure FlowSolution (fn : Function α) (ins outs : Nat → String → Prop) : Prop where
  ins_iff : ∀ i x, ins i x ↔ x ∈ fn.usesAt i ∨ outs i x ∧ x ∉ fn.defsAt i
  outs_iff : ∀ i x, outs i x ↔ ∃ j, fn.Flows i j ∧ ins j x

theorem flowSolution (hwf : fn.WellFormed) (h : fn.liveness = .ok live) :
    fn.FlowSolution (fun i x => x ∈ live.liveIn i) (fun i x => x ∈ live.liveOut i) := by
  obtain ⟨nodes, hnodes, rfl⟩ := liveness_eq_ok h
  have hnone : ∀ i : Nat, fn.body[i]? = none → (Liveness.table nodes)[i]? = none := by
    intro i hi
    rw [List.getElem?_eq_none_iff, ← length_nodes hnodes] at hi
    exact List.getElem?_eq_none (by simpa using hi)
  constructor
  · intro i x
    rcases hi : fn.body[i]? with - | instr
    · simp [Liveness.liveIn, Liveness.liveOut, hnone i hi, usesAt_eq_nil hi]
    · obtain ⟨node, hnode, huses, hdefs, -⟩ := nodes_spec hwf hnodes hi
      rw [usesAt_eq hi, defsAt_eq hi, ← huses, ← hdefs, Liveness.liveIn, Liveness.liveOut,
        Liveness.getElem?_table, hnode]
      exact Liveness.Node.mem_liveIn
  · intro i x
    rcases hi : fn.body[i]? with - | instr
    · simp [Liveness.liveOut, hnone i hi, Flows, hi]
    · obtain ⟨node, hnode, -, -, hnext⟩ := nodes_spec hwf hnodes hi
      simp only [liveIn_table, ← hnext]
      rw [Liveness.liveOut, Liveness.getElem?_table, hnode]
      exact Liveness.Node.mem_liveOut

/-! ### Paths -/

/-- The variable is read at the end of a path of `k` steps and written nowhere
before. -/
def ReadOn (fn : Function α) (x : String) (path : Nat → Nat) (k : Nat) : Prop :=
  x ∈ fn.usesAt (path k) ∧ ∀ j < k, fn.Flows (path j) (path (j + 1)) ∧ x ∉ fn.defsAt (path j)

/-- The path that begins one instruction earlier. -/
def prepend (i : Nat) (path : Nat → Nat) : Nat → Nat
  | 0 => i
  | j + 1 => path j

theorem ReadOn.prepend {x : String} {path : Nat → Nat} {k i : Nat} (h : fn.ReadOn x path k)
    (hflow : fn.Flows i (path 0)) (hdef : x ∉ fn.defsAt i) :
    fn.ReadOn x (prepend i path) (k + 1) := by
  refine ⟨h.1, fun j hj => ?_⟩
  cases j with
  | zero => exact ⟨hflow, hdef⟩
  | succ j => exact h.2 j (by omega)

/-- Reads on paths through the nodes are reads on paths through the function. -/
theorem readWithin_iff (hwf : fn.WellFormed) {nodes : List Liveness.Node}
    (hnodes : fn.nodes = .ok nodes) {x : String} {i : Nat} :
    (∃ k, Liveness.ReadWithin nodes x k i) ↔ ∃ path k, path 0 = i ∧ fn.ReadOn x path k := by
  constructor
  · rintro ⟨k, hk⟩
    induction k generalizing i with
    | zero => exact hk.elim
    | succ k ih =>
      have hlt : i < fn.body.length := length_nodes hnodes ▸ hk.lt_length
      have hi := List.getElem?_eq_getElem hlt
      obtain ⟨node, hnode, huses, hdefs, hnext⟩ := nodes_spec hwf hnodes hi
      obtain ⟨node', hnode', hread⟩ := hk
      obtain rfl : node = node' := Option.some.inj (hnode.symm.trans hnode')
      rcases hread with huse | ⟨hdef, s, hs, hread⟩
      · refine ⟨fun _ => i, 0, rfl, ?_, fun j hj => by omega⟩
        rwa [usesAt_eq hi, ← huses]
      · obtain ⟨path, m, rfl, hpath⟩ := ih hread
        refine ⟨prepend i path, m + 1, rfl, hpath.prepend ((hnext _).mp hs) ?_⟩
        rwa [defsAt_eq hi, ← hdefs]
  · rintro ⟨path, k, rfl, huse, hsteps⟩
    induction k generalizing path with
    | zero =>
      rcases hi : fn.body[path 0]? with - | instr
      · rw [usesAt_eq_nil hi] at huse
        cases huse
      · obtain ⟨node, hnode, huses, -⟩ := nodes_spec hwf hnodes hi
        rw [usesAt_eq hi, ← huses] at huse
        exact ⟨1, node, hnode, .inl huse⟩
    | succ k ih =>
      obtain ⟨hflow, hdef⟩ := hsteps 0 (by omega)
      obtain ⟨m, hm⟩ := ih (fun j => path (j + 1)) huse fun j hj => hsteps (j + 1) (by omega)
      obtain ⟨instr, next, hi, -⟩ := id hflow
      obtain ⟨node, hnode, -, hdefs, hnext⟩ := nodes_spec hwf hnodes hi
      rw [defsAt_eq hi, ← hdefs] at hdef
      exact ⟨m + 1, node, hnode, .inr ⟨hdef, _, (hnext _).mpr hflow, hm⟩⟩

/-- A solution holds whatever is read on some path. -/
theorem FlowSolution.of_readOn {ins outs : Nat → String → Prop} (h : fn.FlowSolution ins outs)
    {x : String} {path : Nat → Nat} {k : Nat} (hread : fn.ReadOn x path k) : ins (path 0) x := by
  induction k generalizing path with
  | zero => exact (h.ins_iff _ _).mpr (.inl hread.1)
  | succ k ih =>
    obtain ⟨hflow, hdef⟩ := hread.2 0 (by omega)
    have hnext : ins (path 1) x :=
      @ih (fun j => path (j + 1)) ⟨hread.1, fun j hj => hread.2 (j + 1) (by omega)⟩
    exact (h.ins_iff _ _).mpr (.inr ⟨(h.outs_iff _ _).mpr ⟨_, hflow, hnext⟩, hdef⟩)

theorem mem_liveIn_iff (hwf : fn.WellFormed) (h : fn.liveness = .ok live) {i : Nat} {x : String} :
    x ∈ live.liveIn i ↔ ∃ path k, path 0 = i ∧ fn.ReadOn x path k := by
  obtain ⟨nodes, hnodes, rfl⟩ := liveness_eq_ok h
  rw [liveIn_table, (Liveness.settles_settled nodes).exact, readWithin_iff hwf hnodes]

/-! ### Exactness -/

/-- **Liveness is exact.**  If every jump of a function that has been read goes to
a label of the function, then the loop that computes its liveness ends, and what
it leaves is given by the paths through the function.  So the sets satisfy the
equations of liveness, and they lie within all sets that do. -/
theorem liveness_exact {tokens : List Token} {p : Program Span} (hparse : parse tokens = .ok p)
    {fn : Function Span} (hfn : fn ∈ p.functions) (hjumps : fn.JumpsInside) :
    ∃ nodes live, fn.nodes = .ok nodes ∧ fn.liveness = .ok live ∧
      Liveness.Settles nodes (Liveness.unswept nodes) (live.rows.map Liveness.Row.sets) ∧
      (∀ i x, x ∈ live.liveIn i ↔ ∃ path k, path 0 = i ∧ fn.ReadOn x path k) ∧
      (∀ i x, x ∈ live.liveOut i ↔ ∃ j, fn.Flows i j ∧ x ∈ live.liveIn j) ∧
      fn.FlowSolution (fun i x => x ∈ live.liveIn i) (fun i x => x ∈ live.liveOut i) ∧
      ∀ ins outs, fn.FlowSolution ins outs →
        ∀ i x, (x ∈ live.liveIn i → ins i x) ∧ (x ∈ live.liveOut i → outs i x) := by
  have hwf := parse_wellFormed hparse fn hfn
  obtain ⟨nodes, hnodes⟩ := exists_nodes hwf hjumps
  have hlive : fn.liveness = .ok ⟨Liveness.table nodes, fn.callIndices⟩ :=
    bind_eq_ok.mpr ⟨nodes, hnodes, rfl⟩
  have hsol := flowSolution hwf hlive
  refine ⟨nodes, _, hnodes, hlive, ?_, fun i x => mem_liveIn_iff hwf hlive, hsol.outs_iff, hsol, ?_⟩
  · rw [Liveness.map_sets_table]
    exact Liveness.settles_settled nodes
  · intro ins outs h
    have hins : ∀ i x, x ∈ Liveness.liveIn ⟨Liveness.table nodes, fn.callIndices⟩ i → ins i x := by
      intro i x hx
      obtain ⟨path, k, rfl, hread⟩ := (mem_liveIn_iff hwf hlive).mp hx
      exact h.of_readOn hread
    refine fun i x => ⟨hins i x, fun hx => ?_⟩
    obtain ⟨j, hflow, hj⟩ := (hsol.outs_iff i x).mp hx
    exact (h.outs_iff i x).mpr ⟨j, hflow, hins j x hj⟩

theorem liveness_exact_sample :
    Sample.function.JumpsInside ∧ ∃ live, Sample.function.liveness = .ok live ∧
      (∀ i x, x ∈ live.liveIn i ↔ ∃ path k, path 0 = i ∧ Sample.function.ReadOn x path k) ∧
      ∀ i x, x ∈ live.liveOut i ↔ ∃ j, Sample.function.Flows i j ∧ x ∈ live.liveIn j := by
  have hjumps : Sample.function.JumpsInside := by decide
  obtain ⟨nodes, live, -, hlive, -, hin, hout, -⟩ :=
    liveness_exact Sample.parse_tokens Sample.mem_functions hjumps
  exact ⟨hjumps, live, hlive, hin, hout⟩

end Function

end Vapor
