/-
Vapor/Proofs/Emission/Failure.lean

When the lines of a function cannot be written.  If all its variables have places, then
the only thing that can go wrong is that an operation is applied to more variables in
slots than there are scratch registers; then the pool is exhausted, with all its
registers in use (`function_fails`).  Together with `function_succeeds` this makes the
bound of three exact.
-/
import Vapor.Proofs.Emission.Success

namespace Vapor

namespace Emit

open Machine

/-! ### Generators that fail -/

section Fails

variable {ε β γ : Type} {pool pool' : Pool} {ls : List Line} {e : ε}

/-- The generator fails. -/
def Fails (g : Emit ε β) (pool : Pool) (e : ε) : Prop :=
  (g pool).result = .error e

/-- Nothing follows a generator that fails. -/
theorem Fails.bind {g : Emit ε β} (h : Fails g pool e) (f : β → Emit ε γ) :
    Fails (g >>= f) pool e := by
  unfold Fails
  rw [bind_of_error h]

/-- What follows a generator may fail. -/
theorem fails_bind {g : Emit ε β} {f : β → Emit ε γ} {b : β} (hg : g.Gives pool ls pool' b)
    (hf : Fails (f b) pool' e) : Fails (g >>= f) pool e := by
  have hpool : g pool = ⟨ls, pool', .ok b⟩ := hg
  unfold Fails
  rw [bind_of_ok (b := b) (by rw [hpool]), hpool]
  exact hf

theorem fails_after {α : Type} {g : Gen α Unit} {f : Unit → Gen α γ} {e : EmitError α}
    (hg : Leads g pool pool') (hf : Fails (f ()) pool' e) : Fails (g >>= f) pool e := by
  obtain ⟨ls, hgives⟩ := hg
  exact fails_bind hgives hf

end Fails

variable {α : Type} {m : Allocation} {pool : Pool}

/-- All scratch registers are in use. -/
def noneLeft : EmitError α :=
  .pool (.exhausted Register.scratches)

/-! ### Operands -/

theorem inUse_of_ready (hpool : pool.Ready) (hfree : pool.free = []) :
    pool.inUse = Register.scratches := by
  rw [Pool.inUse, hfree, hpool.declared]
  rfl

/-- A register cannot be loaded into if there is none. -/
theorem fails_load (hpool : pool.Ready) {x : Ref α} (hfree : pool.free.length < m.cost [x.name]) :
    Fails (load m x) pool noneLeft := by
  have hcost := cost_name_le m x.name
  have hempty : pool.free = [] := List.length_eq_zero_iff.mp (by omega)
  -- the variable is in a slot
  obtain ⟨k, hk⟩ : ∃ k, m.location? x.name = some (.slot k) := by
    have hpos : 0 < m.cost [x.name] := by omega
    obtain ⟨y, hy, hslot⟩ := List.countP_pos_iff.mp hpos
    obtain rfl := List.mem_singleton.mp hy
    unfold Allocation.slotted at hslot
    split at hslot
    · exact ⟨_, ‹_›⟩
    · cases hslot
  refine fails_bind (gives_location.mpr ⟨hk, rfl, rfl⟩) (Fails.bind ?_ _)
  show (acquire pool).result = _
  have hacq : pool.acquire = .error (.exhausted Register.scratches) := by
    rw [Pool.acquire, hempty, inUse_of_ready hpool hempty]
  rw [acquire, hacq]
  rfl

theorem fails_value (hpool : pool.Ready) {o : Operand α}
    (hfree : pool.free.length < m.cost o.vars) : Fails (value m o) pool noneLeft := by
  cases o with
  | var ref => exact (fails_load hpool hfree).bind _
  | int | text | label => exact absurd hfree (Nat.not_lt_zero _)

/-- Operands cannot be evaluated if they need more registers than are free. -/
theorem fails_values (hm : m.WellFormed) (hpool : pool.Ready) {os : List (Operand α)}
    (hx : m.Covers (os.flatMap Operand.vars))
    (hfree : pool.free.length < m.cost (os.flatMap Operand.vars)) :
    Fails (values m os) pool noneLeft := by
  induction os generalizing pool with
  | nil => exact absurd hfree (Nat.not_lt_zero _)
  | cons o os ih =>
    rw [List.flatMap_cons] at hx hfree
    rw [Allocation.cost, List.countP_append] at hfree
    by_cases hfirst : m.cost o.vars ≤ pool.free.length
    · obtain ⟨ls, v, pool₁, hgives, hready, hheld, hlen⟩ :=
        value_succeeds hm hpool (fun x h => hx x (List.mem_append_left _ h)) hfirst
      have hlength := congrArg List.length hheld
      rw [List.length_append, hlen] at hlength
      refine fails_bind hgives (Fails.bind (ih hready ?_ ?_) _)
      · exact fun x h => hx x (List.mem_append_right _ h)
      · simp only [Allocation.cost] at hlength ⊢
        omega
    · exact (fails_value hpool (by omega)).bind _

theorem fails_define (hpool : pool.Ready) {x : Ref α} {source : Source}
    (hfree : pool.free.length < m.cost [x.name]) : Fails (define m x source) pool noneLeft :=
  (fails_load hpool hfree).bind _

/-! ### Instructions and functions -/

/-- **An operation that is applied to too many variables in slots cannot be written.** -/
theorem fails_instr (hm : m.WellFormed) (kept : List Register) {i : Instr α}
    (hx : ∀ x, x ∈ i.uses ∨ x ∈ i.defs → ∃ l, m.location? x = some l)
    (hslots : 3 < i.slotOperands m) : Fails (instr m kept i) Pool.scratch noneLeft := by
  have hready := Pool.ready_scratch
  have hthree : Pool.scratch.free.length = 3 := rfl
  cases i with
  | apply dest op args note =>
    have hcovers : m.Covers (args.flatMap Operand.vars) := fun x h =>
      hx x (.inl (Names.mem_ofList.mpr h))
    simp only [Instr.slotOperands] at hslots
    by_cases hargs : m.cost (args.flatMap Operand.vars) ≤ 3
    · -- the operands fit, so it is the destination that does not
      obtain ⟨ls, vs, pool₁, hgives, hready₁, hheld, hlen⟩ :=
        values_succeeds hm hready hcovers (by omega)
      have hlength := congrArg List.length hheld
      rw [List.length_append, hlen] at hlength
      cases dest with
      | none => exact absurd hslots (by simp [Allocation.cost]; exact hargs)
      | some x =>
        have hslots' : 3 < m.cost (args.flatMap Operand.vars) + m.cost [x.name] := hslots
        exact fails_bind hgives (Fails.bind (fails_define hready₁ (by omega)) _)
    · exact Fails.bind (fails_values hm hready hcovers (by omega)) _
  | assign | call | store | load | branch | goto | ret => exact absurd hslots (Nat.not_lt_zero _)

theorem fails_body (hm : m.WellFormed) {fn : Function α} {live : Liveness} {index : Nat}
    {instrs : List (Instr α)}
    (hx : ∀ i ∈ instrs, ∀ x, x ∈ i.uses ∨ x ∈ i.defs → ∃ l, m.location? x = some l)
    (hslots : ∃ i ∈ instrs, 3 < i.slotOperands m) :
    Fails (body fn m live index instrs) Pool.scratch noneLeft := by
  induction instrs generalizing index with
  | nil =>
    obtain ⟨i, hi, -⟩ := hslots
    cases hi
  | cons i rest ih =>
    have hfirst := hx i List.mem_cons_self
    refine fails_after (leads_lines _) ?_
    by_cases hi : i.slotOperands m ≤ 3
    · refine fails_after (leads_instr hm _ hfirst hi) (fails_after (leads_settled fn.name index) ?_)
      refine ih (fun i' hi' => hx i' (List.mem_cons_of_mem _ hi')) ?_
      obtain ⟨i', hmem, hbad⟩ := hslots
      rcases List.mem_cons.mp hmem with rfl | hmem
      · omega
      · exact ⟨i', hmem, hbad⟩
    · exact Fails.bind (fails_instr hm _ hfirst (by omega)) _

/-- A function in which an operation is applied to too many variables in slots cannot be
written. -/
theorem function_fails (hm : m.WellFormed) (fn : Function α) (live : Liveness)
    (hx : ∀ i ∈ fn.body, ∀ x, x ∈ i.uses ∨ x ∈ i.defs → ∃ l, m.location? x = some l)
    (hslots : ∃ i ∈ fn.body, 3 < i.slotOperands m) :
    Fails (function fn m live) Pool.scratch noneLeft := by
  refine fails_after (leads_line _) (fails_after (leads_prologue fn m live) ?_)
  exact Fails.bind (fails_body hm hx hslots) _

end Emit

end Vapor
