/-
Vapor/Proofs/Emission/Success.lean

When the lines of a function can be written.  Every variable needs a place, and a
variable in a slot needs a scratch register while it is loaded (`cost`).  Whatever
is borrowed is given back, so that an instruction leads from a pool to the same pool
(`Leads`).  Only the application of an operation can need more registers than there
are (`function_succeeds`).
-/
import Vapor.Proofs.Emission.Calls

namespace Vapor

/-- Does the variable live in a slot? -/
def Allocation.slotted (m : Allocation) (x : String) : Bool :=
  match m.location? x with
  | some (.slot _) => true
  | _ => false

/-- How many scratch registers are needed to load all the variables at once. -/
def Allocation.cost (m : Allocation) (xs : List String) : Nat :=
  xs.countP m.slotted

/-- All the variables have places. -/
def Allocation.Covers (m : Allocation) (xs : List String) : Prop :=
  ∀ x ∈ xs, ∃ l, m.location? x = some l

/-- How many scratch registers the application of an operation needs: one for each
occurrence of a variable in a slot, its destination included. -/
def Instr.slotOperands {α : Type} (m : Allocation) : Instr α → Nat
  | .apply dest _ args _ =>
    m.cost (args.flatMap Operand.vars) + m.cost (dest.toList.map Ref.name)
  | _ => 0

namespace Emit

open Machine

variable {α : Type} {m : Allocation} {pool pool' : Pool} {ls : List Line}

/-! ### Borrowed registers -/

/-- The scratch registers among some values. -/
def held (vs : List Value) : List Register :=
  vs.filterMap fun
    | .register r => if r ∈ Register.scratches then some r else none
    | _ => none

theorem held_cons (v : Value) (vs : List Value) : held (v :: vs) = held [v] ++ held vs := by
  rw [held, held, held, ← List.filterMap_append]
  rfl

theorem held_register (r : Register) :
    held [.register r] = if r ∈ Register.scratches then [r] else [] := by
  by_cases hr : r ∈ Register.scratches <;> simp [held, hr]

/-- A register is loaded into if there is one. -/
theorem load_succeeds (hm : m.WellFormed) (hpool : pool.Ready) {x : Ref α}
    (hx : ∃ l, m.location? x.name = some l) (hfree : m.cost [x.name] ≤ pool.free.length) :
    ∃ ls r pool', (load m x).Gives pool ls pool' r ∧ pool'.Ready ∧
      pool.free = held [.register r] ++ pool'.free ∧
      (held [.register r]).length = m.cost [x.name] := by
  obtain ⟨l, hl⟩ := hx
  cases l with
  | register r =>
    have hr := Register.not_mem_scratches (hm.isAllocatable hl)
    refine ⟨[], r, pool, gives_load.mpr (.inl ⟨hl, rfl, rfl⟩), hpool, ?_, ?_⟩
    · rw [held_register, if_neg hr, List.nil_append]
    · rw [held_register, if_neg hr]
      simp [Allocation.cost, Allocation.slotted, hl]
  | slot k =>
    have hcost : m.cost [x.name] = 1 := by simp [Allocation.cost, Allocation.slotted, hl]
    rw [hcost] at hfree ⊢
    obtain ⟨r, rest, hrest⟩ := List.exists_cons_of_length_pos hfree
    have hacq : pool.acquire = .ok (r, { pool with free := rest }) :=
      Pool.acquire_eq_ok.mpr ⟨hrest, rfl⟩
    have hr : r ∈ Register.scratches := hpool.mem_scratches (hrest ▸ List.mem_cons_self)
    refine ⟨_, r, _, gives_load.mpr (.inr ⟨k, hl, hacq, rfl⟩), hpool.acquire hacq, ?_, ?_⟩
    · rw [held_register, if_pos hr, hrest]
      rfl
    · rw [held_register, if_pos hr]
      rfl

theorem value_succeeds (hm : m.WellFormed) (hpool : pool.Ready) {o : Operand α}
    (hx : m.Covers o.vars) (hfree : m.cost o.vars ≤ pool.free.length) :
    ∃ ls v pool', (value m o).Gives pool ls pool' v ∧ pool'.Ready ∧
      pool.free = held [v] ++ pool'.free ∧ (held [v]).length = m.cost o.vars := by
  cases o with
  | var ref =>
    obtain ⟨ls, r, pool', hgives, hready, hheld, hlen⟩ :=
      load_succeeds hm hpool (hx ref.name List.mem_cons_self) hfree
    refine ⟨ls ++ [], .register r, pool', ?_, hready, hheld, hlen⟩
    exact gives_bind.mpr ⟨r, pool', ls, [], hgives, gives_pure.mpr ⟨rfl, rfl, rfl⟩, rfl⟩
  | int | text | label =>
    exact ⟨[], _, pool, gives_pure.mpr ⟨rfl, rfl, rfl⟩, hpool, rfl, rfl⟩

theorem values_succeeds (hm : m.WellFormed) (hpool : pool.Ready) {os : List (Operand α)}
    (hx : m.Covers (os.flatMap Operand.vars))
    (hfree : m.cost (os.flatMap Operand.vars) ≤ pool.free.length) :
    ∃ ls vs pool', (values m os).Gives pool ls pool' vs ∧ pool'.Ready ∧
      pool.free = held vs ++ pool'.free ∧
      (held vs).length = m.cost (os.flatMap Operand.vars) := by
  induction os generalizing pool with
  | nil => exact ⟨[], [], pool, gives_pure.mpr ⟨rfl, rfl, rfl⟩, hpool, rfl, rfl⟩
  | cons o os ih =>
    have hcost : m.cost ((o :: os).flatMap Operand.vars)
        = m.cost o.vars + m.cost (os.flatMap Operand.vars) := by
      rw [List.flatMap_cons, Allocation.cost, List.countP_append]
      rfl
    rw [List.flatMap_cons] at hx
    obtain ⟨ls₁, v, pool₁, hgives₁, hready₁, hheld₁, hlen₁⟩ := value_succeeds hm hpool
      (o := o) (fun x h => hx x (List.mem_append_left _ h)) (by omega)
    have hlength := congrArg List.length hheld₁
    rw [List.length_append] at hlength
    obtain ⟨ls₂, vs, pool₂, hgives₂, hready₂, hheld₂, hlen₂⟩ := ih hready₁
      (fun x h => hx x (List.mem_append_right _ h)) (by omega)
    refine ⟨ls₁ ++ (ls₂ ++ []), v :: vs, pool₂, ?_, hready₂, ?_, ?_⟩
    · refine gives_bind.mpr ⟨v, pool₁, ls₁, _, hgives₁, ?_, rfl⟩
      exact gives_bind.mpr ⟨vs, pool₂, ls₂, [], hgives₂, gives_pure.mpr ⟨rfl, rfl, rfl⟩, rfl⟩
    · rw [hheld₁, hheld₂, held_cons v vs, List.append_assoc]
    · rw [held_cons v vs, List.length_append, hlen₁, hlen₂, hcost]

/-! ### Giving back -/

/-- A value's register can be given back unless it is free. -/
theorem drop_succeeds (hpool : pool.Ready) {v : Value} (hv : (held [v] ++ pool.free).Nodup) :
    ∃ pool', (drop v : Gen α Unit).Gives pool [] pool' () ∧ pool'.Ready ∧
      pool'.free.Perm (held [v] ++ pool.free) := by
  cases v with
  | register r =>
    rw [held_register] at hv ⊢
    by_cases hr : r ∈ Register.scratches
    · rw [if_pos hr] at hv ⊢
      have hrel : pool.release r = .ok _ := Pool.release_eq_ok.mpr
        ⟨hpool.declared ▸ hr, (List.nodup_cons.mp hv).1, rfl⟩
      refine ⟨_, (gives_giveBack hpool).mpr ⟨rfl, ?_⟩, hpool.release hrel,
        (hpool.tidy.release hrel).2.2⟩
      rwa [if_pos hr]
    · rw [if_neg hr]
      refine ⟨pool, (gives_giveBack hpool).mpr ⟨rfl, ?_⟩, hpool, .refl _⟩
      rw [if_neg hr]
  | int | label | text =>
    exact ⟨pool, gives_pure.mpr ⟨rfl, rfl, rfl⟩, hpool, .refl _⟩

theorem dropAll_succeeds (hpool : pool.Ready) {vs : List Value}
    (hvs : (held vs ++ pool.free).Nodup) :
    ∃ pool', (dropAll vs : Gen α Unit).Gives pool [] pool' () ∧ pool'.Ready ∧
      pool'.free.Perm (held vs ++ pool.free) := by
  induction vs generalizing pool with
  | nil => exact ⟨pool, gives_pure.mpr ⟨rfl, rfl, rfl⟩, hpool, .refl _⟩
  | cons v vs ih =>
    have hperm : (held (v :: vs) ++ pool.free).Perm (held vs ++ (held [v] ++ pool.free)) := by
      rw [held_cons v vs, ← List.append_assoc (held vs)]
      exact List.perm_append_comm.append_right _
    have hnodup := hperm.nodup_iff.mp hvs
    obtain ⟨pool₁, hgives₁, hready₁, hperm₁⟩ :=
      drop_succeeds (α := α) hpool hnodup.of_append_right
    have hfree₁ := hperm₁.append_left (held vs)
    obtain ⟨pool₂, hgives₂, hready₂, hperm₂⟩ := ih hready₁ (hfree₁.nodup_iff.mpr hnodup)
    refine ⟨pool₂, ?_, hready₂, hperm₂.trans (hfree₁.trans hperm.symm)⟩
    exact gives_bind.mpr ⟨(), pool₁, [], [], hgives₁, hgives₂, rfl⟩

/-- Giving back all that was borrowed restores the pool. -/
theorem dropAll_restores (hpool : pool.Ready) (hpool' : pool'.Ready) {vs : List Value}
    (h : pool.free = held vs ++ pool'.free) :
    (dropAll vs : Gen α Unit).Gives pool' [] pool () := by
  obtain ⟨pool₁, hgives, hready, hperm⟩ := dropAll_succeeds (α := α) hpool'
    (h ▸ hpool.tidy.nodup_free)
  obtain rfl : pool₁ = pool := hpool.ext hready (h ▸ hperm)
  exact hgives

theorem drop_restores (hpool : pool.Ready) (hpool' : pool'.Ready) {v : Value}
    (h : pool.free = held [v] ++ pool'.free) : (drop v : Gen α Unit).Gives pool' [] pool () := by
  obtain ⟨pool₁, hgives, hready, hperm⟩ := drop_succeeds (α := α) hpool'
    (h ▸ hpool.tidy.nodup_free)
  obtain rfl : pool₁ = pool := hpool.ext hready (h ▸ hperm)
  exact hgives

theorem giveBack_restores (hpool : pool.Ready) (hpool' : pool'.Ready) {r : Register}
    (h : pool.free = held [.register r] ++ pool'.free) :
    (giveBack r : Gen α Unit).Gives pool' [] pool () :=
  drop_restores hpool hpool' h

/-! ### Generators that succeed -/

/-- The generator succeeds and leads from one pool to another. -/
def Leads (g : Gen α Unit) (pool pool' : Pool) : Prop :=
  ∃ ls, g.Gives pool ls pool' ()

variable {pool₁ : Pool}

theorem leads_pure : Leads (pure () : Gen α Unit) pool pool :=
  ⟨[], gives_pure.mpr ⟨rfl, rfl, rfl⟩⟩

theorem leads_lines (ls : List Line) : Leads (lines ls : Gen α Unit) pool pool :=
  ⟨ls, gives_lines.mpr ⟨rfl, rfl⟩⟩

theorem leads_line (l : Line) : Leads (line l : Gen α Unit) pool pool :=
  leads_lines [l]

theorem leads_assign (dest : Dest) (source : Source) :
    Leads (assign dest source : Gen α Unit) pool pool :=
  leads_lines _

theorem leads_store (r : Register) (x : Ref α) : Leads (store m r x) pool pool :=
  ⟨_, gives_store.mpr ⟨rfl, rfl⟩⟩

theorem leads_bind {g : Gen α Unit} {f : Unit → Gen α Unit} (hg : Leads g pool pool₁)
    (hf : Leads (f ()) pool₁ pool') : Leads (g >>= f) pool pool' := by
  obtain ⟨ls₁, h₁⟩ := hg
  obtain ⟨ls₂, h₂⟩ := hf
  exact ⟨ls₁ ++ ls₂, gives_bind.mpr ⟨(), pool₁, ls₁, ls₂, h₁, h₂, rfl⟩⟩

/-- A register is borrowed; releasing it will lead back to the pool. -/
theorem leads_acquire (hpool : pool.Ready) (hfree : 0 < pool.free.length)
    {f : Register → Gen α Unit}
    (hf : ∀ r pool₁, Leads (release r : Gen α Unit) pool₁ pool → Leads (f r) pool₁ pool') :
    Leads (acquire >>= f) pool pool' := by
  obtain ⟨r, rest, hrest⟩ := List.exists_cons_of_length_pos hfree
  have hacq : pool.acquire = .ok (r, { pool with free := rest }) :=
    Pool.acquire_eq_ok.mpr ⟨hrest, rfl⟩
  have hr : r ∈ Register.scratches := hpool.mem_scratches (hrest ▸ List.mem_cons_self)
  have hheld : pool.free = held [.register r] ++ rest := by
    rw [held_register, if_pos hr, hrest]
    rfl
  have hback := giveBack_restores (α := α) hpool (hpool.acquire hacq) hheld
  rw [gives_giveBack (hpool.acquire hacq), if_pos hr] at hback
  obtain ⟨ls, hrest⟩ := hf r _ ⟨[], gives_release.mpr hback⟩
  exact ⟨[] ++ ls, gives_bind.mpr ⟨r, _, [], ls, gives_acquire.mpr ⟨rfl, hacq⟩, hrest, rfl⟩⟩

/-- A variable is loaded; giving its register back will lead back to the pool. -/
theorem leads_load (hm : m.WellFormed) (hpool : pool.Ready) {x : Ref α}
    (hx : ∃ l, m.location? x.name = some l) (hfree : m.cost [x.name] ≤ pool.free.length)
    {f : Register → Gen α Unit}
    (hf : ∀ r pool₁, pool₁.Ready → pool.free.length = m.cost [x.name] + pool₁.free.length →
      Leads (giveBack r : Gen α Unit) pool₁ pool → Leads (f r) pool₁ pool') :
    Leads (load m x >>= f) pool pool' := by
  obtain ⟨ls₁, r, pool₁, hgives, hready, hheld, hlen⟩ := load_succeeds hm hpool hx hfree
  have hlength := congrArg List.length hheld
  rw [List.length_append, hlen] at hlength
  obtain ⟨ls₂, hrest⟩ := hf r pool₁ hready hlength ⟨[], giveBack_restores hpool hready hheld⟩
  exact ⟨ls₁ ++ ls₂, gives_bind.mpr ⟨r, pool₁, ls₁, ls₂, hgives, hrest, rfl⟩⟩

/-- An operand is evaluated; dropping it will lead back to the pool. -/
theorem leads_value (hm : m.WellFormed) (hpool : pool.Ready) {o : Operand α}
    (hx : m.Covers o.vars) (hfree : m.cost o.vars ≤ pool.free.length) {f : Value → Gen α Unit}
    (hf : ∀ v pool₁, Leads (drop v : Gen α Unit) pool₁ pool → Leads (f v) pool₁ pool') :
    Leads (value m o >>= f) pool pool' := by
  obtain ⟨ls₁, v, pool₁, hgives, hready, hheld, -⟩ := value_succeeds hm hpool hx hfree
  obtain ⟨ls₂, hrest⟩ := hf v pool₁ ⟨[], drop_restores hpool hready hheld⟩
  exact ⟨ls₁ ++ ls₂, gives_bind.mpr ⟨v, pool₁, ls₁, ls₂, hgives, hrest, rfl⟩⟩

theorem leads_values (hm : m.WellFormed) (hpool : pool.Ready) {os : List (Operand α)}
    (hx : m.Covers (os.flatMap Operand.vars))
    (hfree : m.cost (os.flatMap Operand.vars) ≤ pool.free.length) {f : List Value → Gen α Unit}
    (hf : ∀ vs pool₁, pool₁.Ready →
      pool.free.length = m.cost (os.flatMap Operand.vars) + pool₁.free.length →
      Leads (dropAll vs : Gen α Unit) pool₁ pool → Leads (f vs) pool₁ pool') :
    Leads (values m os >>= f) pool pool' := by
  obtain ⟨ls₁, vs, pool₁, hgives, hready, hheld, hlen⟩ := values_succeeds hm hpool hx hfree
  have hlength := congrArg List.length hheld
  rw [List.length_append, hlen] at hlength
  obtain ⟨ls₂, hrest⟩ := hf vs pool₁ hready hlength ⟨[], dropAll_restores hpool hready hheld⟩
  exact ⟨ls₁ ++ ls₂, gives_bind.mpr ⟨vs, pool₁, ls₁, ls₂, hgives, hrest, rfl⟩⟩

theorem cost_le_length (m : Allocation) (xs : List String) : m.cost xs ≤ xs.length :=
  List.countP_le_length

theorem cost_vars_le (m : Allocation) (o : Operand α) : m.cost o.vars ≤ 1 := by
  refine (cost_le_length m _).trans ?_
  cases o <;> simp [Operand.vars]

theorem cost_name_le (m : Allocation) (x : String) : m.cost [x] ≤ 1 :=
  cost_le_length m [x]

theorem leads_define (hm : m.WellFormed) (hpool : pool.Ready) {x : Ref α} (source : Source)
    (hx : ∃ l, m.location? x.name = some l) (hfree : m.cost [x.name] ≤ pool.free.length) :
    Leads (define m x source) pool pool := by
  refine leads_load hm hpool hx hfree fun r pool₁ _ _ hback => ?_
  exact leads_bind (leads_assign _ _) (leads_bind (leads_store r x) hback)

theorem leads_passArg (hm : m.WellFormed) (hpool : pool.Ready) (position : Nat) {arg : Operand α}
    (hx : m.Covers arg.vars) (hfree : 0 < pool.free.length) :
    Leads (passArg m position arg) pool pool := by
  unfold passArg
  split
  · rename_i x hr hlit
    obtain rfl := literal_eq_inl hlit
    obtain ⟨l, hl⟩ := hx x.name List.mem_cons_self
    exact ⟨_, gives_bind.mpr ⟨l, pool, [], _, gives_location.mpr ⟨hl, rfl, rfl⟩,
      gives_assign.mpr ⟨rfl, rfl⟩, rfl⟩⟩
  · exact leads_assign _ _
  · rename_i x hr hlit
    obtain rfl := literal_eq_inl hlit
    have hcost := cost_name_le m x.name
    refine leads_load hm hpool (hx x.name List.mem_cons_self) (by omega) fun r _ _ _ hback => ?_
    exact leads_bind (leads_assign _ _) hback
  · exact leads_assign _ _

theorem leads_passArgs (hm : m.WellFormed) (hpool : pool.Ready) (position : Nat)
    {args : List (Operand α)} (hx : m.Covers (args.flatMap Operand.vars))
    (hfree : 0 < pool.free.length) : Leads (passArgs m position args) pool pool := by
  induction args generalizing position with
  | nil => exact leads_pure
  | cons arg args ih =>
    rw [List.flatMap_cons] at hx
    refine leads_bind (leads_passArg hm hpool position (fun x h => ?_) hfree)
      (ih (position + 1) fun x h => ?_)
    · exact hx x (List.mem_append_left _ h)
    · exact hx x (List.mem_append_right _ h)

theorem leads_transfer (hm : m.WellFormed) (hpool : pool.Ready) {callee : Callee α}
    (hx : m.Covers callee.vars) (hfree : 0 < pool.free.length) :
    Leads (transfer m callee) pool pool := by
  cases callee with
  | label f => exact leads_line _
  | var x =>
    have hcost := cost_name_le m x.name
    refine leads_load hm hpool (hx x.name List.mem_cons_self) (by omega) fun r _ _ _ hback => ?_
    exact leads_bind (leads_line _) hback

theorem leads_params (hpool : pool.Ready) (live : Liveness) (position : Nat) (xs : List (Ref α))
    (hfree : 0 < pool.free.length) : Leads (params m live position xs) pool pool := by
  induction xs generalizing position with
  | nil => exact leads_pure
  | cons x xs ih =>
    refine leads_bind ?_ (ih _)
    unfold param
    split
    · split
      · exact leads_pure
      · exact leads_assign _ _
      · exact leads_assign _ _
      · refine leads_acquire hpool hfree fun r _ hback => ?_
        exact leads_bind (leads_assign _ _) (leads_bind (leads_assign _ _) hback)
    · exact leads_pure

/-! ### Instructions and functions -/

/-- An instruction whose variables have places can be written, unless it applies an
operation to more variables in slots than there are scratch registers. -/
theorem leads_instr (hm : m.WellFormed) (kept : List Register) {i : Instr α}
    (hx : ∀ x, x ∈ i.uses ∨ x ∈ i.defs → ∃ l, m.location? x = some l)
    (hslots : i.slotOperands m ≤ 3) : Leads (instr m kept i) Pool.scratch Pool.scratch := by
  have hready := Pool.ready_scratch
  have hthree : Pool.scratch.free.length = 3 := rfl
  cases i with
  | assign dest source =>
    have hcost := cost_name_le m dest.name
    have hcost' := cost_vars_le m source
    refine leads_load hm hready (hx _ (.inr List.mem_cons_self)) (by omega)
      fun r pool₁ hpool₁ hlen hback => ?_
    refine leads_value hm hpool₁ (fun x h => hx x (.inl (Names.mem_ofList.mpr h))) (by omega)
      fun v pool₂ hdrop => ?_
    exact leads_bind (leads_assign _ _) (leads_bind hdrop (leads_bind (leads_store r dest) hback))
  | load dest source =>
    have hcost := cost_name_le m dest.name
    have hcost' := cost_name_le m source.base.name
    refine leads_load hm hready (hx _ (.inr List.mem_cons_self)) (by omega)
      fun r pool₁ hpool₁ hlen hback => ?_
    refine leads_load hm hpool₁ (hx _ (.inl List.mem_cons_self)) (by omega)
      fun q pool₂ _ _ hback' => ?_
    exact leads_bind (leads_assign _ _) (leads_bind hback' (leads_bind (leads_store r dest) hback))
  | store dest source =>
    have hcost := cost_name_le m dest.base.name
    have hcost' := cost_vars_le m source
    refine leads_load hm hready (hx _ (.inl (Names.mem_ofList.mpr List.mem_cons_self))) (by omega)
      fun r pool₁ hpool₁ hlen hback => ?_
    refine leads_value hm hpool₁ (fun x h => hx x (.inl (Names.mem_ofList.mpr
      (List.mem_cons_of_mem _ h)))) (by omega) fun v pool₂ hdrop => ?_
    exact leads_bind (leads_assign _ _) (leads_bind hdrop hback)
  | branch test positive target =>
    have hcost := cost_vars_le m test
    refine leads_value hm hready (fun x h => hx x (.inl (Names.mem_ofList.mpr h))) (by omega)
      fun v pool₁ hdrop => ?_
    exact leads_bind (leads_line _) hdrop
  | goto target => exact leads_line _
  | ret result =>
    cases result with
    | none => exact leads_bind (leads_lines _) (leads_line _)
    | some o =>
      have hcost := cost_vars_le m o
      refine leads_value hm hready (fun x h => hx x (.inl (Names.mem_ofList.mpr ?_))) (by omega)
        fun v pool₁ hdrop => ?_
      · simpa using h
      · exact leads_bind (leads_assign _ _) (leads_bind hdrop
          (leads_bind (leads_lines _) (leads_line _)))
  | apply dest op args =>
    simp only [Instr.slotOperands] at hslots
    refine leads_values hm hready (fun x h => hx x (.inl (Names.mem_ofList.mpr h))) (by omega)
      fun vs pool₁ hpool₁ hlen hdrop => ?_
    cases dest with
    | none => exact leads_bind (leads_line _) hdrop
    | some x =>
      have hslots' : m.cost (args.flatMap Operand.vars) + m.cost [x.name] ≤ 3 := hslots
      exact leads_bind (leads_define hm hpool₁ _ (hx _ (.inr List.mem_cons_self)) (by omega)) hdrop
  | call dest callee args =>
    have hvars : ∀ x ∈ callee.vars ++ args.flatMap Operand.vars, ∃ l, m.location? x = some l :=
      fun x h => hx x (.inl (Names.mem_ofList.mpr h))
    refine leads_bind (leads_lines _) (leads_bind (leads_passArgs hm hready 0
      (fun x h => hvars x (List.mem_append_right _ h)) (by omega)) ?_)
    have htransfer := leads_transfer hm hready
      (fun x h => hvars x (List.mem_append_left _ h)) (by omega)
    cases dest with
    | none => exact leads_bind htransfer (leads_lines _)
    | some x =>
      have hcost := cost_name_le m x.name
      exact leads_bind htransfer (leads_bind (leads_define hm hready _
        (hx _ (.inr List.mem_cons_self)) (by omega)) (leads_lines _))

theorem leads_prologue (fn : Function α) (m : Allocation) (live : Liveness) :
    Leads (prologue fn m live) Pool.scratch Pool.scratch :=
  leads_bind (leads_lines _) (leads_params Pool.ready_scratch live 0 fn.params (by decide))

theorem leads_settled (name : String) (index : Nat) :
    Leads (settled name index : Gen α Unit) Pool.scratch Pool.scratch :=
  ⟨[] ++ [], gives_bind.mpr ⟨_, _, [], [], gives_now.mpr ⟨rfl, rfl, rfl⟩,
    gives_pure.mpr ⟨rfl, rfl, rfl⟩, rfl⟩⟩

theorem leads_body {fn : Function α} {live : Liveness} {index : Nat} {instrs : List (Instr α)}
    (h : ∀ j i, instrs[j]? = some i →
      Leads (instr m (i.kept m live (index + j)) i) Pool.scratch Pool.scratch) :
    Leads (body fn m live index instrs) Pool.scratch Pool.scratch := by
  induction instrs generalizing index with
  | nil => exact leads_lines _
  | cons i rest ih =>
    refine leads_bind (leads_lines _) (leads_bind (h 0 i rfl) ?_)
    refine leads_bind (leads_settled fn.name index) (ih fun j i' hj => ?_)
    have hrest := h (j + 1) i' hj
    rwa [show index + (j + 1) = index + 1 + j by omega] at hrest

/-- A function can be written if all its variables have places and no operation is
applied to too many variables in slots. -/
theorem function_succeeds (hm : m.WellFormed) (fn : Function α) (live : Liveness)
    (hx : ∀ i ∈ fn.body, ∀ x, x ∈ i.uses ∨ x ∈ i.defs → ∃ l, m.location? x = some l)
    (hslots : ∀ i ∈ fn.body, i.slotOperands m ≤ 3) :
    ∃ ls, (function fn m live).Gives Pool.scratch ls Pool.scratch (fn.frame m live) := by
  obtain ⟨ls₁, h₁⟩ := leads_prologue fn m live
  obtain ⟨ls₂, h₂⟩ : Leads (body fn m live 0 fn.body) Pool.scratch Pool.scratch := by
    refine leads_body fun j i hj => ?_
    have hi := List.mem_of_getElem? hj
    exact leads_instr hm _ (hx i hi) (hslots i hi)
  refine ⟨[.header fn.name (fn.frame m live)] ++ (ls₁ ++ (ls₂ ++ [])), ?_⟩
  refine gives_bind.mpr ⟨(), _, _, _, gives_line.mpr ⟨rfl, rfl⟩, ?_, rfl⟩
  refine gives_bind.mpr ⟨(), _, ls₁, _, h₁, ?_, rfl⟩
  exact gives_bind.mpr ⟨(), _, ls₂, [], h₂, gives_pure.mpr ⟨rfl, rfl, rfl⟩, rfl⟩

end Emit

end Vapor
