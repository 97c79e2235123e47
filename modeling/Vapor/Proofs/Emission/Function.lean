/-
Vapor/Proofs/Emission/Function.lean

A function by itself.  Its code and the function run side by side while every call
is answered from outside: with the same value for both, and for the code with
anything at all in the registers and slots that a call may overwrite.  Whatever the
function does its code does too (`lowering_simulates`), for every assignment of
places that keeps interfering variables apart.
-/
import Vapor.Proofs.Allocation.LinearScan
import Vapor.Proofs.Emission.Simulation

namespace Vapor

variable {α V W : Type}

open Machine Emit

/-- Both have made the same call: to the same function, with the arguments where the
convention wants them, and in the same world. -/
structure Delivers (c : Source.Call V W) (d : Machine.Call V W) : Prop where
  callee : d.callee = c.callee
  args : ∀ k v, c.args[k]? = some v → d.passed k = v
  outside : d.outside = c.outside

/-- A function on its way and its code match.  Once the function has returned, so
has its code, with the same value and with the callee-saved registers as on entry. -/
inductive OpenFits (fn : Function α) (m : Allocation) (live : Liveness) (code : List Line)
    (entry : Register → V) : Source.Open V W → Machine.Open V W → Prop where
  | running {s : Source.State V W} {t : State V W} {calls : List (Source.Call V W)}
      {calls' : List (Machine.Call V W)} (hfits : Fits fn m live code entry s t)
      (hcalls : List.Forall₂ Delivers calls calls') :
      OpenFits fn m live code entry (.running s calls) (.running t calls')
  | returned {value : Option V} {o : Outside V W} {σ : Store V W}
      {calls : List (Source.Call V W)} {calls' : List (Machine.Call V W)}
      (houtside : σ.outside = o) (hresult : ∀ v, value = some v → σ.regs .result = v)
      (hsaved : ∀ r, r.isCalleeSaved = true → σ.regs r = entry r)
      (hcalls : List.Forall₂ Delivers calls calls') :
      OpenFits fn m live code entry (.returned value o calls) (.returned σ calls')

variable {fn : Function α} {m : Allocation} {live : Liveness} {code : List Line}
  {entry : Register → V} {I : Interp V W} {replies : Nat → Reply V W} {debris : Nat → Debris V}

/-- Steps within the function are steps of the whole. -/
theorem openSteps_of_next {k : Nat} {t t' : State V W} (calls : List (Machine.Call V W))
    (h : steps (Machine.next I code) k t = some t') :
    steps (openStep I replies debris code) k (.running t calls) = some (.running t' calls) := by
  refine steps_embed (fun t => Open.running t calls) (fun t t' ht => ?_) h
  show (exec I code t).bind _ = _
  rw [exec_of_next ht]
  rfl

/-- One step of the function. -/
theorem OpenFits.step (hlow : Lowered fn m live code) {s s' : Source.Open V W}
    {t : Machine.Open V W} (hfits : OpenFits fn m live code entry s t)
    (hstep : fn.openStep I replies s = some s') :
    ∃ k t', 0 < k ∧ steps (openStep I replies debris code) k t = some t' ∧
      OpenFits fn m live code entry s' t' := by
  cases hfits with
  | returned => cases hstep
  | @running s t calls calls' hfits hcalls =>
    obtain ⟨outcome, hexec, hstep⟩ := Option.bind_eq_some_iff.mp hstep
    have hlength := hcalls.length_eq
    cases outcome with
    | next s₁ =>
      obtain rfl := Option.some.inj hstep
      obtain ⟨k, t', hk, hsteps, hfits'⟩ := hfits.next hlow hexec
      exact ⟨k, _, hk, openSteps_of_next calls' hsteps, .running hfits' hcalls⟩
    | call dest callee args =>
      obtain rfl := Option.some.inj hstep
      obtain ⟨k, t', hsteps, hcall, hpassed, hout, hresume⟩ := hfits.call hlow hexec
      -- the reply keeps the convention, whatever the debris
      obtain ⟨l, t'', hsteps', hfits'⟩ := hresume _ _ _
        (returns_afterCall t'.store (replies calls.length) (debris calls.length))
      have hone : openStep I replies debris code (.running t' calls') = some (.running
          ⟨t'.line + 1, t'.store.afterCall (replies calls.length) (debris calls.length)⟩
          (⟨callee, t'.store.passed, t'.store.outside⟩ :: calls')) := by
        show (exec I code t').bind _ = _
        rw [hcall, hlength]
        rfl
      have hdelivers : Delivers ⟨callee, args, s.outside⟩
          ⟨callee, t'.store.passed, t'.store.outside⟩ := ⟨rfl, hpassed, hout⟩
      refine ⟨k + (1 + l), _, by omega, ?_, .running hfits' (.cons hdelivers hcalls)⟩
      exact steps_trans (openSteps_of_next calls' hsteps)
        (steps_trans (steps_one hone) (openSteps_of_next _ hsteps'))
    | ret value =>
      obtain rfl := Option.some.inj hstep
      obtain ⟨k, t', hsteps, hret, hout, hresult, hsaved⟩ := hfits.ret hlow hexec
      have hone : openStep I replies debris code (.running t' calls')
          = some (.returned t'.store calls') := by
        show (exec I code t').bind _ = _
        rw [hret]
        rfl
      refine ⟨k + 1, _, by omega, ?_, .returned hout hresult hsaved hcalls⟩
      exact steps_trans (openSteps_of_next calls' hsteps) (steps_one hone)

/-- Every run of the function. -/
theorem Emit.Lowered.openSteps (hlow : Lowered fn m live code) {args : List V} {σ : Store V W}
    (hargs : ∀ k v, args[k]? = some v → σ.received k = v) {n : Nat} {s : Source.Open V W}
    (hrun : steps (fn.openStep I replies) n (.running (fn.enter args σ.outside) []) = some s) :
    ∃ k t, n ≤ k ∧ steps (openStep I replies debris code) k (.running ⟨0, σ⟩ []) = some t ∧
      OpenFits fn m live code σ.regs s t := by
  obtain ⟨k, t, hsteps, hfits⟩ := hlow.enter I hargs
  have hstep : ∀ (s : Source.Open V W) t s', OpenFits fn m live code σ.regs s t →
      fn.openStep I replies s = some s' →
        ∃ k t', 0 < k ∧ steps (openStep I replies debris code) k t = some t' ∧
          OpenFits fn m live code σ.regs s' t' := fun _ _ _ h => h.step hlow
  obtain ⟨l, t', hl, hsteps', hfits'⟩ := steps_simulate hstep (.running hfits .nil) hrun
  exact ⟨k + l, t', by omega, steps_trans (openSteps_of_next [] hsteps) hsteps', hfits'⟩

/-- **The code of a function does what the function does, whatever the places.**  Let
a function that has been read have a liveness, and let its variables have places such
that no variable is written where another one with the same place is live, no two
parameters that are live on entry share a place, and no operation is applied to more
variables in slots than there are scratch registers.  Then the function can be
written.  And for every interpretation, with calls answered from outside in any way
that keeps the calling convention, the code follows the function step by step: before
each instruction all live variables that have been written are in their places, and
all operations, accesses to memory, jumps, calls and returns are the same. -/
theorem lowering_simulates {tokens : List Token} {p : Program Span}
    (hparse : parse tokens = .ok p) {fn : Function Span} (hfn : fn ∈ p.functions)
    {live : Liveness} (hlive : fn.liveness = .ok live) {registers : List (String × Register)}
    {slots : List (String × Int)} {m : Allocation} (hm : Allocation.ofPlaces registers slots = .ok m)
    (hplaced : ∀ x, fn.Mentions x → ∃ l, m.location? x = some l)
    (hseparate : ∀ i x y, x ∈ fn.defsAt i → y ∈ live.liveOut i → y ≠ x →
      m.location? x ≠ m.location? y)
    (hparams : ParamsApart m live fn.params) (hslots : ∀ i ∈ fn.body, i.slotOperands m ≤ 3) :
    ∃ code, Emit.function fn m live Pool.scratch
        = ⟨code, Pool.scratch, .ok (fn.frame m live)⟩ ∧
      ∀ {V W : Type} (I : Interp V W) (replies : Nat → Reply V W) (debris : Nat → Debris V)
        (args : List V) (σ : Store V W), (∀ k v, args[k]? = some v → σ.received k = v) →
          ∀ n s, steps (fn.openStep I replies) n (.running (fn.enter args σ.outside) []) = some s →
            ∃ k t, n ≤ k ∧
              steps (openStep I replies debris code) k (.running ⟨0, σ⟩ []) = some t ∧
              OpenFits fn m live code σ.regs s t := by
  have hwf := Allocation.wellFormed_of_ofPlaces hm
  obtain ⟨code, hgives⟩ := function_succeeds hwf fn live
    (fun i hi x hx => hplaced x ⟨i, hi, hx⟩) hslots
  have hlow : Lowered fn m live code :=
    ⟨parse_wellFormed hparse fn hfn, hlive, hwf, hseparate, hparams, _, hgives⟩
  exact ⟨code, hgives, fun I replies debris args σ hargs n s hrun => hlow.openSteps hargs hrun⟩

namespace Sample

/-- Integers, with subtraction as the only operation. -/
def interp : Interp Int Unit where
  int n := n
  text _ := 0
  label _ := 0
  isTrue n := n != 0
  function? _ := none
  apply _ args _ := (args.headD 0 - args.getD 1 0, ())
  read _ _ _ := (0, ())
  write _ _ _ _ := ()

/-- The variables of the function. -/
def names : List String :=
  ["n", "a", "b", "c", "d"]

/-- Places of all kinds: a callee-saved register, a caller-saved one and slots. -/
def places : Allocation :=
  ⟨[("n", saved), ("a", unsaved)], [("b", 1), ("c", 2), ("d", 3)]⟩

theorem mem_names {x : String} (h : function.Mentions x) : x ∈ names := by
  obtain ⟨i, hi, hx⟩ := h
  have hall : ∀ i ∈ function.body, ∀ y ∈ i.uses ++ i.defs, y ∈ names := by decide
  exact hall i hi x (List.mem_append.mpr hx)

theorem places_apart :
    ∀ x ∈ names, ∀ y ∈ names, y ≠ x → places.location? x ≠ places.location? y := by
  decide

theorem places_separate {live : Liveness} (hlive : function.liveness = .ok live) (i : Nat)
    (x y : String) (hx : x ∈ function.defsAt i) (hy : y ∈ live.liveOut i) (hne : y ≠ x) :
    places.location? x ≠ places.location? y := by
  have hwf := parse_wellFormed parse_tokens function mem_functions
  obtain ⟨j, -, hy⟩ := ((Function.flowSolution hwf hlive).outs_iff i y).mp hy
  have hmention : function.Mentions y := (Function.exists_occurrence_iff hwf hlive).mp
    ⟨j, (Function.mem_occurrences_iff hwf hlive).mpr (.inl hy)⟩
  exact places_apart x (mem_names (Function.mentions_iff.mpr ⟨i, .inr hx⟩)) y
    (mem_names hmention) hne

end Sample

theorem lowering_simulates_sample :
    ∃ live code, Sample.function.liveness = .ok live ∧
      Emit.function Sample.function Sample.places live Pool.scratch
        = ⟨code, Pool.scratch, .ok (Sample.function.frame Sample.places live)⟩ ∧
      ∀ (replies : Nat → Reply Int Unit) (debris : Nat → Debris Int) (σ : Store Int Unit),
        (∀ k v, [1, 7, 0, 0, 0][k]? = some v → σ.received k = v) →
          ∃ k σ' calls,
            steps (openStep Sample.interp replies debris code) k (.running ⟨0, σ⟩ [])
              = some (.returned σ' calls) ∧
            calls.length = 1 ∧ σ'.regs .result = (replies 0).result := by
  obtain ⟨live, hlive⟩ : ∃ live, Sample.function.liveness = .ok live := ⟨_, rfl⟩
  have hm : Allocation.ofPlaces Sample.places.registers [("b", 1), ("c", 2), ("d", 3)]
      = .ok Sample.places := rfl
  have hplaced : ∀ x ∈ Sample.names, (Sample.places.location? x).isSome = true := by decide
  have hparams : ∀ x ∈ Sample.function.params, x.name ∈ Sample.names := by decide
  obtain ⟨code, hcode, hruns⟩ := lowering_simulates Sample.parse_tokens Sample.mem_functions hlive
    hm (fun x hx => Option.isSome_iff_exists.mp (hplaced x (Sample.mem_names hx)))
    (Sample.places_separate hlive)
    (fun x hx y hy _ _ hne =>
      Sample.places_apart x.name (hparams x hx) y.name (hparams y hy) hne.symm)
    (by decide)
  refine ⟨live, code, hlive, hcode, fun replies debris σ hargs => ?_⟩
  -- the branch, the subtraction, the call, the jump, the branch again, and the return
  obtain ⟨k, t, -, hsteps, hfits⟩ := hruns Sample.interp replies debris _ σ hargs 6 _ rfl
  cases hfits with
  | returned _ hresult _ hcalls =>
    exact ⟨k, _, _, hsteps, hcalls.length_eq.symm, hresult _ rfl⟩

end Vapor
