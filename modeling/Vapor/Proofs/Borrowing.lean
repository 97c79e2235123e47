/-
Vapor/Proofs/Borrowing.lean

Pools in use.  Registers are borrowed from a pool and given back in any order, and among these
calls there may be others that the pool refuses.  Whatever the calls are, the pool stays in order
(`borrowing_orderly`): its free registers stand in the order in which they were declared, the
others are those that have been borrowed and not been given back since, and a call that is refused
changes nothing.

A pool only knows which registers are free.  What has been borrowed is known from the events of
the past (`Outstanding`), and the two are kept in step by every call (`Accounts.perform`).
-/
import Vapor.Emission.Basic
import Vapor.Proofs.Pool

namespace Vapor

namespace Pool

/-! ### Calls -/

/-- What can be asked of a pool. -/
inductive Call where
  | acquire
  | release (r : Register)
deriving DecidableEq, Repr

/-- What a call has done that was not refused. -/
inductive Event where
  | acquired (r : Register)
  | released (r : Register)
deriving DecidableEq, Repr

/-- Makes a call.  The pool is there afterwards also if the call is refused. -/
def Call.perform : Call → Emit (EmitError Unit) Event
  | .acquire => do
    let r ← Emit.acquire
    return .acquired r
  | .release r => do
    Emit.release r
    return .released r

/-- The event of a call, if it was not refused. -/
def Call.event? (c : Call) (pool : Pool) : Option Event :=
  (c.perform pool).result.toOption

/-- The pool after some calls. -/
def after (pool : Pool) (calls : List Call) : Pool :=
  calls.foldl (fun pool c => (c.perform pool).pool) pool

/-- The events of some calls, in their order. -/
def events (pool : Pool) : List Call → List Event
  | [] => []
  | c :: calls => (c.event? pool).toList ++ (c.perform pool).pool.events calls

/-- The register has been borrowed, and has not been given back since. -/
def Outstanding (events : List Event) (r : Register) : Prop :=
  ∃ before later, events = before ++ .acquired r :: later ∧ .released r ∉ later

variable {pool rest : Pool} {r s : Register} {events : List Event}

/-! ### What one call does -/

theorem acquire_eq_error : (∃ e, pool.acquire = .error e) ↔ pool.free = [] := by
  rw [acquire]
  split
  · rename_i h
    simp [h]
  · rename_i h
    simp [h]

theorem perform_acquire_of_ok (h : pool.acquire = .ok (r, rest)) :
    Call.acquire.perform pool = ⟨[], rest, .ok (.acquired r)⟩ := by
  have hacq : (Emit.acquire : Emit (EmitError Unit) Register) pool = ⟨[], rest, .ok r⟩ := by
    simp only [Emit.acquire, h]
  rw [Call.perform, Emit.bind_of_ok (congrArg Emission.result hacq), hacq]
  rfl

theorem perform_acquire_of_error {e : PoolError} (h : pool.acquire = .error e) :
    Call.acquire.perform pool = ⟨[], pool, .error (.pool e)⟩ := by
  have hacq : (Emit.acquire : Emit (EmitError Unit) Register) pool
      = ⟨[], pool, .error (.pool e)⟩ := by
    simp only [Emit.acquire, h]
  rw [Call.perform, Emit.bind_of_error (congrArg Emission.result hacq), hacq]

theorem perform_release_of_ok (h : pool.release r = .ok rest) :
    (Call.release r).perform pool = ⟨[], rest, .ok (.released r)⟩ := by
  have hrel : (Emit.release r : Emit (EmitError Unit) Unit) pool = ⟨[], rest, .ok ()⟩ := by
    simp only [Emit.release, h]
  rw [Call.perform, Emit.bind_of_ok (congrArg Emission.result hrel), hrel]
  rfl

theorem perform_release_of_error {e : PoolError} (h : pool.release r = .error e) :
    (Call.release r).perform pool = ⟨[], pool, .error (.pool e)⟩ := by
  have hrel : (Emit.release r : Emit (EmitError Unit) Unit) pool
      = ⟨[], pool, .error (.pool e)⟩ := by
    simp only [Emit.release, h]
  rw [Call.perform, Emit.bind_of_error (congrArg Emission.result hrel), hrel]

/-- All that a call can do: hand out a register, take one back, or be refused. -/
theorem perform_cases (c : Call) (pool : Pool) :
    (∃ r rest, c = .acquire ∧ pool.acquire = .ok (r, rest) ∧
      c.perform pool = ⟨[], rest, .ok (.acquired r)⟩) ∨
    (∃ r rest, c = .release r ∧ pool.release r = .ok rest ∧
      c.perform pool = ⟨[], rest, .ok (.released r)⟩) ∨
    ∃ e, c.perform pool = ⟨[], pool, .error e⟩ := by
  cases c with
  | acquire =>
    rcases h : pool.acquire with e | ⟨r, rest⟩
    · exact .inr (.inr ⟨_, perform_acquire_of_error h⟩)
    · exact .inl ⟨r, rest, rfl, rfl, perform_acquire_of_ok h⟩
  | release r =>
    rcases h : pool.release r with e | rest
    · exact .inr (.inr ⟨_, perform_release_of_error h⟩)
    · exact .inr (.inl ⟨r, rest, rfl, h, perform_release_of_ok h⟩)

/-! ### What is outstanding -/

theorem not_outstanding_nil : ¬ Outstanding [] r := by
  rintro ⟨before, later, h, -⟩
  simp at h

/-- After one more event the register is outstanding if it was borrowed just now, or before and
the event did not give it back. -/
theorem outstanding_concat {e : Event} :
    Outstanding (events ++ [e]) r ↔
      e = .acquired r ∨ Outstanding events r ∧ e ≠ .released r := by
  constructor
  · rintro ⟨before, later, heq, hlater⟩
    -- the event that borrowed the register is the last one, or the last one stands behind it
    rcases List.eq_nil_or_concat later with rfl | ⟨init, last, rfl⟩
    · obtain ⟨-, hlast⟩ := List.append_inj' heq rfl
      exact .inl (List.cons.inj hlast).1
    · rw [List.concat_eq_append] at heq hlater
      rw [← List.cons_append, ← List.append_assoc] at heq
      obtain ⟨rfl, hlast⟩ := List.append_inj' heq rfl
      obtain rfl := (List.cons.inj hlast).1
      rw [List.mem_append, List.mem_singleton, not_or] at hlater
      exact .inr ⟨⟨before, init, rfl, hlater.1⟩, Ne.symm hlater.2⟩
  · rintro (rfl | ⟨⟨before, later, rfl, hlater⟩, hne⟩)
    · exact ⟨events, [], rfl, List.not_mem_nil⟩
    · refine ⟨before, later ++ [e], by simp, ?_⟩
      rw [List.mem_append, List.mem_singleton, not_or]
      exact ⟨hlater, Ne.symm hne⟩

/-! ### Accounts -/

theorem mem_inUse : r ∈ pool.inUse ↔ r ∈ pool.declared ∧ r ∉ pool.free := by
  simp [inUse]

/-- The registers in use are those that the events of the past have left outstanding. -/
structure Accounts (pool : Pool) (past : List Event) : Prop where
  tidy : pool.Tidy
  inUse : ∀ r, r ∈ pool.inUse ↔ Outstanding past r

variable {past : List Event}

theorem accounts_ofList {rs : List Register} (h : rs.Nodup) : Accounts (ofList rs) [] where
  tidy := tidy_ofList h
  inUse r := by simp [mem_inUse, ofList, not_outstanding_nil]

theorem Accounts.acquired (h : Accounts pool past) (hacq : pool.acquire = .ok (s, rest)) :
    Accounts rest (past ++ [.acquired s]) := by
  obtain ⟨hfree, hdecl⟩ := acquire_eq_ok.mp hacq
  have hnodup := h.tidy.nodup_free
  have hsub := h.tidy.sublist
  rw [hfree] at hnodup hsub
  refine ⟨h.tidy.acquire hacq, fun r => ?_⟩
  rw [outstanding_concat, ← h.inUse, mem_inUse, mem_inUse, hdecl, hfree, List.mem_cons, not_or,
    Event.acquired.injEq]
  constructor
  · rintro ⟨hmem, hr⟩
    -- what is no longer free was handed out just now or was not free before
    by_cases heq : s = r
    · exact .inl heq
    · exact .inr ⟨⟨hmem, Ne.symm heq, hr⟩, Event.noConfusion⟩
  · rintro (rfl | ⟨⟨hmem, -, hr⟩, -⟩)
    · exact ⟨hsub.subset List.mem_cons_self, (List.nodup_cons.mp hnodup).1⟩
    · exact ⟨hmem, hr⟩

theorem Accounts.released (h : Accounts pool past) (hrel : pool.release s = .ok rest) :
    Accounts rest (past ++ [.released s]) := by
  obtain ⟨htidy, hdecl, hperm⟩ := h.tidy.release hrel
  refine ⟨htidy, fun r => ?_⟩
  rw [outstanding_concat, ← h.inUse, mem_inUse, mem_inUse, hdecl, hperm.mem_iff, List.mem_cons,
    not_or, ne_eq, Event.released.injEq]
  constructor
  · rintro ⟨hmem, hne, hr⟩
    exact .inr ⟨⟨hmem, hr⟩, Ne.symm hne⟩
  · rintro (hevent | ⟨⟨hmem, hr⟩, hne⟩)
    · cases hevent
    · exact ⟨hmem, Ne.symm hne, hr⟩

/-- **Every call keeps the accounts.** -/
theorem Accounts.perform (h : Accounts pool past) (c : Call) :
    Accounts (c.perform pool).pool (past ++ (c.event? pool).toList) := by
  rw [Call.event?]
  rcases perform_cases c pool with ⟨r, rest, rfl, hacq, hp⟩ | ⟨r, rest, rfl, hrel, hp⟩ | ⟨e, hp⟩
  · rw [hp]
    exact h.acquired hacq
  · rw [hp]
    exact h.released hrel
  · rw [hp]
    simpa [Except.toOption] using h

/-- Calls keep the accounts. -/
theorem Accounts.after (h : Accounts pool past) (calls : List Call) :
    Accounts (pool.after calls) (past ++ pool.events calls) := by
  induction calls generalizing pool past with
  | nil => simpa [Pool.after, Pool.events] using h
  | cons c calls ih =>
    rw [Pool.events, ← List.append_assoc]
    exact ih (h.perform c)

theorem declared_perform (c : Call) (pool : Pool) :
    (c.perform pool).pool.declared = pool.declared := by
  rcases perform_cases c pool with ⟨r, rest, -, hacq, hp⟩ | ⟨r, rest, -, hrel, hp⟩ | ⟨e, hp⟩
  · rw [hp]
    exact (acquire_eq_ok.mp hacq).2
  · rw [hp]
    obtain ⟨-, -, rfl⟩ := release_eq_ok.mp hrel
    rfl
  · rw [hp]

@[simp] theorem declared_after (pool : Pool) (calls : List Call) :
    (pool.after calls).declared = pool.declared := by
  induction calls generalizing pool with
  | nil => rfl
  | cons c calls ih => exact (ih _).trans (declared_perform c pool)

/-! ### Pools in order -/

namespace Tidy

/-- Free registers and registers in use make up the pool. -/
theorem partition (h : pool.Tidy) : (pool.free ++ pool.inUse).Perm pool.declared := by
  have hdisjoint : pool.free.Disjoint pool.inUse := fun r hfree huse => (mem_inUse.mp huse).2 hfree
  have hnodup : (pool.free ++ pool.inUse).Nodup :=
    h.nodup_free.append (h.nodup.filter _) hdisjoint
  rw [List.perm_ext_iff_of_nodup hnodup h.nodup]
  intro r
  rw [List.mem_append, mem_inUse]
  constructor
  · rintro (hfree | ⟨hdecl, -⟩)
    · exact h.sublist.subset hfree
    · exact hdecl
  · intro hdecl
    by_cases hfree : r ∈ pool.free
    · exact .inl hfree
    · exact .inr ⟨hdecl, hfree⟩

/-- A pool is idle if nothing is in use. -/
theorem isIdle_iff (h : pool.Tidy) : pool.isIdle = true ↔ pool.inUse = [] := by
  have hlength := h.partition.length_eq
  rw [List.length_append] at hlength
  -- only lengths are compared, and those of the two parts add up
  rw [isIdle, beq_iff_eq, ← List.length_eq_zero_iff]
  omega

/-- The first free register is the first declared one that is free. -/
theorem find?_declared (h : pool.Tidy) :
    (pool.declared.find? fun r => pool.free.contains r) = pool.free.head? := by
  obtain ⟨declared, free⟩ := pool
  have hnodup := h.nodup
  have hsub : free.Sublist declared := h.sublist
  clear h
  -- along the declared registers: one that is passed over is not free, the first one kept is
  induction hsub with
  | slnil => rfl
  | @cons free declared r hsub ih =>
    obtain ⟨hr, hnodup⟩ := List.nodup_cons.mp hnodup
    have hfree : free.contains r = false := by
      simpa using fun hmem => hr (hsub.subset hmem)
    rw [List.find?_cons_of_neg (by simpa using hfree)]
    exact ih hnodup
  | cons_cons r hsub ih => simp

/-- The register that is handed out is the first declared one that is free. -/
theorem event?_acquire (h : pool.Tidy) :
    Call.acquire.event? pool =
      (pool.declared.find? fun r => pool.free.contains r).map .acquired := by
  rw [h.find?_declared, Call.event?]
  rcases hacq : pool.acquire with e | ⟨r, rest⟩
  · rw [perform_acquire_of_error hacq, acquire_eq_error.mp ⟨e, hacq⟩]
    rfl
  · rw [perform_acquire_of_ok hacq, (acquire_eq_ok.mp hacq).1]
    rfl

end Tidy

/-- A register is taken back if it is in use. -/
theorem isSome_event?_release :
    ((Call.release r).event? pool).isSome = true ↔ r ∈ pool.inUse := by
  rw [Call.event?, mem_inUse]
  constructor
  · intro h
    rcases hrel : pool.release r with e | rest
    · rw [perform_release_of_error hrel] at h
      cases h
    · obtain ⟨hdecl, hfree, -⟩ := release_eq_ok.mp hrel
      exact ⟨hdecl, hfree⟩
  · rintro ⟨hdecl, hfree⟩
    rw [perform_release_of_ok (release_eq_ok.mpr ⟨hdecl, hfree, rfl⟩)]
    rfl

/-- A call that is refused changes nothing. -/
theorem pool_perform_of_refused {c : Call} (h : c.event? pool = none) :
    (c.perform pool).pool = pool := by
  rw [Call.event?] at h
  rcases perform_cases c pool with ⟨r, rest, -, -, hp⟩ | ⟨r, rest, -, -, hp⟩ | ⟨e, hp⟩
  · rw [hp] at h
    cases h
  · rw [hp] at h
    cases h
  · rw [hp]

/-- A pool of the registers `rs` is in order after these events. -/
structure Orderly (rs : List Register) (past : List Event) (pool : Pool) : Prop where
  /-- The free registers are in the declared order. -/
  sublist : pool.free.Sublist rs
  /-- Each register is either free or in use. -/
  partition : (pool.free ++ pool.inUse).Perm rs
  /-- In use is what has been borrowed and not been given back. -/
  inUse : ∀ r, r ∈ pool.inUse ↔ Outstanding past r
  idle : pool.isIdle = true ↔ pool.inUse = []
  /-- A register can be borrowed if there is a free one; it is the first of them. -/
  acquire : (Call.acquire.event? pool).isSome = true ↔ pool.free ≠ []
  first : Call.acquire.event? pool = (rs.find? fun r => pool.free.contains r).map .acquired
  /-- A register can be given back if it is in use. -/
  release : ∀ r, ((Call.release r).event? pool).isSome = true ↔ r ∈ pool.inUse
  refused : ∀ c : Call, c.event? pool = none → (c.perform pool).pool = pool

theorem Accounts.orderly (h : Accounts pool past) : Orderly pool.declared past pool where
  sublist := h.tidy.sublist
  partition := h.tidy.partition
  inUse := h.inUse
  idle := h.tidy.isIdle_iff
  acquire := by
    rw [h.tidy.event?_acquire, h.tidy.find?_declared, Option.isSome_map, List.isSome_head?]
  first := h.tidy.event?_acquire
  release _ := isSome_event?_release
  refused _ := pool_perform_of_refused

/-- **Borrowing keeps a pool in order.**  A pool of distinct registers is in order after any calls,
be they refused or not. -/
theorem borrowing_orderly {rs : List Register} (h : rs.Nodup) (calls : List Call) :
    Orderly rs ((ofList rs).events calls) ((ofList rs).after calls) := by
  have haccounts := (accounts_ofList h).after calls
  have hdecl : ((ofList rs).after calls).declared = rs := declared_after (ofList rs) calls
  rw [List.nil_append] at haccounts
  have horderly := haccounts.orderly
  rwa [hdecl] at horderly

/-- Registers that come back out of order, and calls for too many registers, for one of another
pool and for one that is free. -/
def Sample.calls : List Call :=
  [.release (.scratch 2), .acquire, .acquire, .release .result, .release (.scratch 0), .acquire,
    .acquire, .acquire, .release (.scratch 1), .release (.scratch 1), .release (.scratch 0)]

theorem borrowing_orderly_sample :
    Register.scratches.Nodup ∧
      (ofList Register.scratches).after Sample.calls
        = ⟨Register.scratches, [.scratch 0, .scratch 1]⟩ ∧
      (ofList Register.scratches).events Sample.calls
        = [.acquired (.scratch 0), .acquired (.scratch 1), .released (.scratch 0),
            .acquired (.scratch 0), .acquired (.scratch 2), .released (.scratch 1),
            .released (.scratch 0)] ∧
      Orderly Register.scratches ((ofList Register.scratches).events Sample.calls)
        ((ofList Register.scratches).after Sample.calls) := by
  have hnodup : Register.scratches.Nodup := by decide
  exact ⟨hnodup, by decide, by decide, borrowing_orderly hnodup Sample.calls⟩

end Pool

end Vapor
