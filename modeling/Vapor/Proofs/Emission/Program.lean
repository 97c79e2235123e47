/-
Vapor/Proofs/Emission/Program.lean

Whole programs.  Every activation of the program has its counterpart among the
activations of the code: the running ones match, and each one that waits for a call
goes on to a match whatever the call returns, as long as the call keeps the calling
convention.  That it does is what the match of the callee says.  So the code of a
compiled program does what the program does (`compile_simulates`).
-/
import Vapor.Proofs.Emission.Function
import Vapor.Proofs.Emission.Text

namespace Vapor

variable {α V W : Type}

open Machine Emit

/-! ### The functions of a program -/

/-- A function and lines that have been written for it, with places that keep
interfering variables apart. -/
def Translates (fn : Function α) (code : List Line) : Prop :=
  ∃ m live, Lowered fn m live code

/-- Linear scan keeps interfering variables apart. -/
theorem Allocator.Compiles.translates {a : Allocator} (ha : a.WellFormed) {fn : Function α}
    (hwf : fn.WellFormed) {code : List Line} (h : a.Compiles fn code) : Translates fn code := by
  obtain ⟨live, m, pool, frame, hlive, hm, hgives⟩ := h
  obtain rfl : a.outcome live = m := Except.ok.inj ((Allocator.allocate_eq_ok ha live).symm.trans hm)
  have hplaces := Allocation.wellFormed_of_ofPlaces hm
  obtain ⟨-, rfl, -⟩ := function_spec hplaces hgives
  refine ⟨_, live, hwf, hlive, hplaces, fun i x y hx hy hne => ?_, ?_, frame, hgives⟩
  · exact Function.location?_ne_of_def hwf hlive ha hne.symm hx hy
  · intro x _ y _ hx hy hne
    rw [Liveness.entry, List.head?_eq_getElem?] at hx hy
    exact Function.location?_ne_of_occurrences hwf hlive ha hne (.inl hx) (.inl hy)

theorem Translates.isFunction {fn : Function α} {code : List Line} (h : Translates fn code)
    (name : String) : isFunction name code = (fn.name == name) := by
  obtain ⟨m, live, hlow⟩ := h
  rw [hlow.code_eq]
  rfl

/-- Functions are found under the same names. -/
theorem find?_translates {fns : List (Function α)} {codes : List (List Line)}
    (h : List.Forall₂ Translates fns codes) {name : String} {fn : Function α}
    (hfn : (fns.find? fun fn => fn.name == name) = some fn) :
    ∃ code, codes.find? (isFunction name) = some code ∧ Translates fn code := by
  induction h with
  | nil => cases hfn
  | @cons fn₁ code₁ fns codes hhead htail ih =>
    rw [List.find?_cons] at hfn ⊢
    rw [hhead.isFunction name]
    cases hname : fn₁.name == name with
    | true =>
      rw [hname] at hfn
      obtain rfl := Option.some.inj hfn
      exact ⟨code₁, rfl, hhead⟩
    | false =>
      rw [hname] at hfn
      exact ih hfn

/-! ### Matching activations -/

/-- The activation of some lines that waits at a call. -/
def Machine.State.suspend (code : List Line) (t : State V W) : Machine.Pending V :=
  ⟨code, t.line + 1, t.store.ins, t.store.outs, t.store.locals⟩

/-- An activation that waits and its code match: whatever the call returns, they go
on to a match.  `entry` is what the registers held on entry. -/
def WaitFits (I : Interp V W) (entry : Register → V) (w : Source.Pending α V W)
    (code : List Line) (t : State V W) : Prop :=
  ∃ m live, Lowered w.fn m live code ∧
    ∀ σ v o, Returns t.store σ v o →
      ∃ k t', steps (Machine.next I code) k ⟨t.line + 1, σ⟩ = some t' ∧
        Fits w.fn m live code entry (w.state.complete w.dest v o) t'

/-- The activations that wait match one by one.  `first` is what the registers held
when the first activation of all was entered, and `entry` what they held when the
running one was: the registers at the call for which the next one waits. -/
inductive StackFits (I : Interp V W) (first : Register → V) :
    (entry : Register → V) → List (Source.Pending α V W) → List (Machine.Pending V) → Prop where
  | nil : StackFits I first first [] []
  | cons {entry : Register → V} {w : Source.Pending α V W} {code : List Line} {t : State V W}
      {stack : List (Source.Pending α V W)} {stack' : List (Machine.Pending V)}
      (hwait : WaitFits I entry w code t) (hrest : StackFits I first entry stack stack') :
      StackFits I first t.store.regs (w :: stack) (t.suspend code :: stack')

/-- A program on its way and its code match.  Once the program has returned, so has
its code, with the same value, in the same world and with the callee-saved registers
as on entry. -/
inductive ConfigFits (I : Interp V W) (first : Register → V) :
    Source.Config α V W → Machine.Config V W → Prop where
  | running {fn : Function α} {m : Allocation} {live : Liveness} {code : List Line}
      {entry : Register → V} {s : Source.State V W} {t : State V W}
      {stack : List (Source.Pending α V W)} {stack' : List (Machine.Pending V)} {calls : Nat}
      (hlow : Lowered fn m live code) (hfits : Fits fn m live code entry s t)
      (hstack : StackFits I first entry stack stack') :
      ConfigFits I first (.running fn s stack) (.running code t stack' calls)
  | returned {value : Option V} {o : Outside V W} {σ : Store V W} (houtside : σ.outside = o)
      (hresult : ∀ v, value = some v → σ.regs .result = v)
      (hsaved : ∀ r, r.isCalleeSaved = true → σ.regs r = first r) :
      ConfigFits I first (.returned value o) (.returned σ)

/-! ### Steps -/

section Steps

variable {I : Interp V W} {first : Register → V} {fresh : Nat → Slots V}
  {codes : List (List Line)}

/-- Steps within an activation are steps of the program. -/
theorem programSteps_of_next {code : List Line} {k : Nat} {t t' : State V W}
    (stack : List (Machine.Pending V)) (calls : Nat)
    (h : steps (Machine.next I code) k t = some t') :
    steps (Machine.step I fresh codes) k (.running code t stack calls)
      = some (.running code t' stack calls) := by
  refine steps_embed (fun t => Config.running code t stack calls) (fun t t' ht => ?_) h
  show (exec I code t).bind _ = _
  rw [exec_of_next ht]
  rfl

/-- What goes on after a call is the same whether or not a value is returned, as far
as there is a destination for it. -/
theorem Source.Pending.resume_eq_some {w : Source.Pending α V W} {value : Option V}
    {o : Outside V W} {s : Source.State V W} (h : w.resume value o = some s) {v : V}
    (hv : ∀ u, value = some u → v = u) : s = w.state.complete w.dest v o := by
  unfold Source.Pending.resume at h
  unfold Source.State.complete
  split at h
  · rename_i hdest
    rw [hdest]
    exact (Option.some.inj h).symm
  · rename_i x u hdest
    rw [hdest, hv u rfl]
    exact (Option.some.inj h).symm
  · cases h

/-- The arguments that a caller passes are those that its callee receives. -/
theorem Machine.received_enter (σ : Store V W) (slots : Slots V) (k : Nat) :
    (Machine.enter σ slots).store.received k = σ.passed k := by
  rfl

variable {p : Program α} {fn : Function α} {m : Allocation} {live : Liveness} {code : List Line}
  {entry : Register → V} {s : Source.State V W} {t : State V W}
  {stack : List (Source.Pending α V W)} {stack' : List (Machine.Pending V)}

/-- **A call of a function of the program.** -/
theorem StackFits.call (hcodes : List.Forall₂ Translates p.functions codes)
    (hlow : Lowered fn m live code) (hfits : Fits fn m live code entry s t)
    (hstack : StackFits I first entry stack stack') (calls : Nat) {dest : Option String}
    {target : Entry V} {args : List V} (hexec : fn.exec I s = some (.call dest target args))
    {name : String} (hname : target.name? I = some name) {callee : Function α}
    (hcallee : p.function? name = some callee) :
    ∃ k t', 0 < k ∧
      steps (Machine.step I fresh codes) k (.running code t stack' calls) = some t' ∧
      ConfigFits I first
        (.running callee (callee.enter args s.outside) (⟨fn, s, dest⟩ :: stack)) t' := by
  obtain ⟨k, t₁, hsteps, hcall, hpassed, hout, hresume⟩ := hfits.call hlow hexec
  obtain ⟨lines, hlines, m', live', hlow'⟩ := find?_translates hcodes hcallee
  have hone : Machine.step I fresh codes (.running code t₁ stack' calls)
      = some (.running lines (Machine.enter t₁.store (fresh calls)) (t₁.suspend code :: stack')
          (calls + 1)) := by
    show (exec I code t₁).bind _ = _
    rw [hcall]
    show (target.name? I).bind _ = _
    rw [hname]
    show (codes.find? (isFunction name)).bind _ = _
    rw [hlines]
    rfl
  -- the incoming slots of the callee are the outgoing ones of its caller
  have hargs : ∀ j v, args[j]? = some v →
      (Machine.enter t₁.store (fresh calls)).store.received j = v := fun j v hv =>
    (received_enter t₁.store (fresh calls) j).trans (hpassed j v hv)
  obtain ⟨l, t₂, hsteps', hfits'⟩ := hlow'.enter I hargs
  have hwait : WaitFits I entry ⟨fn, s, dest⟩ code t₁ := ⟨m, live, hlow, hresume⟩
  have hfits' : Fits callee m' live' lines t₁.store.regs (callee.enter args s.outside) t₂ :=
    hout ▸ hfits'
  refine ⟨k + (1 + l), .running lines t₂ (t₁.suspend code :: stack') (calls + 1), by omega, ?_,
    .running hlow' hfits' (.cons hwait hstack)⟩
  exact steps_trans (programSteps_of_next stack' calls hsteps)
    (steps_trans (steps_one hone) (programSteps_of_next _ _ hsteps'))

/-- **A return.**  The callee-saved registers are as they were at the call, so the
caller goes on to a match. -/
theorem StackFits.ret (hlow : Lowered fn m live code) (hfits : Fits fn m live code entry s t)
    (hstack : StackFits I first entry stack stack') (calls : Nat) {value : Option V}
    (hexec : fn.exec I s = some (.ret value)) {c : Source.Config α V W}
    (hstep : p.step I (.running fn s stack) = some c) :
    ∃ k t', 0 < k ∧
      steps (Machine.step I fresh codes) k (.running code t stack' calls) = some t' ∧
      ConfigFits I first c t' := by
  obtain ⟨k, t₁, hsteps, hret, hout, hresult, hsaved⟩ := hfits.ret hlow hexec
  rw [Program.step, hexec, Option.bind_eq_bind, Option.bind_some] at hstep
  cases hstack with
  | nil =>
    obtain rfl := Option.some.inj hstep
    have hone : Machine.step I fresh codes (.running code t₁ [] calls)
        = some (.returned t₁.store) := by
      show (exec I code t₁).bind _ = _
      rw [hret]
      rfl
    refine ⟨k + 1, .returned t₁.store, by omega, ?_, .returned hout hresult hsaved⟩
    exact steps_trans (programSteps_of_next [] calls hsteps) (steps_one hone)
  | @cons entry' w code' t₂ stack stack' hwait hrest =>
    obtain ⟨s', hs', hstep⟩ := Option.bind_eq_some_iff.mp hstep
    obtain rfl := Option.some.inj hstep
    obtain ⟨m', live', hlow', hresume⟩ := hwait
    have hone : Machine.step I fresh codes (.running code t₁ (t₂.suspend code' :: stack') calls)
        = some (.running code' ((t₂.suspend code').resume t₁.store) stack' calls) := by
      show (exec I code t₁).bind _ = _
      rw [hret]
      rfl
    -- the callee has put the callee-saved registers back, and the slots are the caller's own
    have hreturns : Returns t₂.store ((t₂.suspend code').resume t₁.store).store
        (t₁.store.regs .result) s.outside := ⟨rfl, hsaved, rfl, hout⟩
    obtain ⟨l, t₃, hsteps', hfits'⟩ := hresume _ _ _ hreturns
    rw [← Source.Pending.resume_eq_some hs' hresult] at hfits'
    refine ⟨k + (1 + l), .running code' t₃ stack' calls, by omega, ?_,
      .running hlow' hfits' hrest⟩
    exact steps_trans (programSteps_of_next _ calls hsteps)
      (steps_trans (steps_one hone) (programSteps_of_next _ _ hsteps'))

/-- **One step of the program.** -/
theorem ConfigFits.step (hcodes : List.Forall₂ Translates p.functions codes)
    {c c' : Source.Config α V W} {t : Machine.Config V W} (hfits : ConfigFits I first c t)
    (hstep : p.step I c = some c') :
    ∃ k t', 0 < k ∧ steps (Machine.step I fresh codes) k t = some t' ∧
      ConfigFits I first c' t' := by
  cases hfits with
  | returned => cases hstep
  | @running fn m live code entry s t stack stack' calls hlow hfits hstack =>
    obtain ⟨outcome, hexec, houtcome⟩ := Option.bind_eq_some_iff.mp hstep
    cases outcome with
    | next s' =>
      obtain rfl := Option.some.inj houtcome
      obtain ⟨k, t', hk, hsteps, hfits'⟩ := hfits.next hlow hexec
      exact ⟨k, .running code t' stack' calls, hk, programSteps_of_next stack' calls hsteps,
        .running hlow hfits' hstack⟩
    | call dest target args =>
      obtain ⟨callee, hcallee, houtcome⟩ := Option.bind_eq_some_iff.mp houtcome
      obtain ⟨name, hname, hcallee⟩ := Option.bind_eq_some_iff.mp hcallee
      split at houtcome
      · obtain rfl := Option.some.inj houtcome
        exact hstack.call hcodes hlow hfits calls hexec hname hcallee
      · cases houtcome
    | ret value => exact hstack.ret hlow hfits calls hexec hstep

end Steps

/-! ### Runs -/

/-- When a program starts with one of its functions and the code with the lines of
that function, the code does what the program does. -/
structure Follows (p : Program α) (codes : List (List Line)) (I : Interp V W)
    (fresh : Nat → Slots V) (fn : Function α) (code : List Line) (args : List V)
    (σ : Store V W) : Prop where
  /-- To whatever state the program comes, the code comes to one that matches, with at
  least as many steps. -/
  matched : ∀ n c, steps (p.step I) n (.running fn (fn.enter args σ.outside) []) = some c →
    ∃ k t, n ≤ k ∧ steps (Machine.step I fresh codes) k (.running code ⟨0, σ⟩ [] 0) = some t ∧
      ConfigFits I σ.regs c t
  /-- If the program returns, so does the code. -/
  returns : ∀ n value o, steps (p.step I) n (.running fn (fn.enter args σ.outside) [])
      = some (.returned value o) →
    ∃ k σ', steps (Machine.step I fresh codes) k (.running code ⟨0, σ⟩ [] 0)
        = some (.returned σ') ∧ σ'.outside = o ∧
      (∀ v, value = some v → σ'.regs .result = v) ∧
      ∀ r, r.isCalleeSaved = true → σ'.regs r = σ.regs r
  /-- If the program runs forever, so does the code. -/
  diverges : (∀ n, ∃ c, steps (p.step I) n (.running fn (fn.enter args σ.outside) []) = some c) →
    ∀ k, ∃ t, steps (Machine.step I fresh codes) k (.running code ⟨0, σ⟩ [] 0) = some t

theorem Translates.matched {p : Program α} {codes : List (List Line)}
    (hcodes : List.Forall₂ Translates p.functions codes) {fn : Function α} {code : List Line}
    (hcode : Translates fn code) (I : Interp V W) (fresh : Nat → Slots V) {args : List V}
    {σ : Store V W} (hargs : ∀ k v, args[k]? = some v → σ.received k = v) {n : Nat}
    {c : Source.Config α V W}
    (hrun : steps (p.step I) n (.running fn (fn.enter args σ.outside) []) = some c) :
    ∃ k t, n ≤ k ∧ steps (Machine.step I fresh codes) k (.running code ⟨0, σ⟩ [] 0) = some t ∧
      ConfigFits I σ.regs c t := by
  obtain ⟨m, live, hlow⟩ := hcode
  -- once the prologue is done, the code is ahead of the program by nothing but labels
  obtain ⟨k, t, hsteps, hfits⟩ := hlow.enter I hargs
  have hstep : ∀ (c : Source.Config α V W) t c', ConfigFits I σ.regs c t → p.step I c = some c' →
      ∃ k t', 0 < k ∧ steps (Machine.step I fresh codes) k t = some t' ∧
        ConfigFits I σ.regs c' t' := fun _ _ _ h => h.step hcodes
  have hstart : ConfigFits I σ.regs (.running fn (fn.enter args σ.outside) [])
      (.running code t [] 0) := .running hlow hfits .nil
  obtain ⟨l, t', hl, hsteps', hfits'⟩ := steps_simulate hstep hstart hrun
  exact ⟨k + l, t', by omega, steps_trans (programSteps_of_next [] 0 hsteps) hsteps', hfits'⟩

theorem Translates.follows {p : Program α} {codes : List (List Line)}
    (hcodes : List.Forall₂ Translates p.functions codes) {fn : Function α} {code : List Line}
    (hcode : Translates fn code) (I : Interp V W) (fresh : Nat → Slots V) {args : List V}
    {σ : Store V W} (hargs : ∀ k v, args[k]? = some v → σ.received k = v) :
    Follows p codes I fresh fn code args σ where
  matched n c hrun := hcode.matched hcodes I fresh hargs hrun
  returns n value o hrun := by
    obtain ⟨k, t, -, hsteps, hfits⟩ := hcode.matched hcodes I fresh hargs hrun
    cases hfits with
    | returned houtside hresult hsaved => exact ⟨k, _, hsteps, houtside, hresult, hsaved⟩
  diverges hrun k := by
    obtain ⟨c, hc⟩ := hrun k
    obtain ⟨l, t, hle, hsteps, -⟩ := hcode.matched hcodes I fresh hargs hc
    exact steps_of_le hle hsteps

/-- **A compiled program does what the program does.**  Let a program that has been
read be compiled with registers that are for variables and of which none is given
twice.  Then the text consists of the lines of its functions, and for every
interpretation, every function of the program and all arguments that are passed to
it, the code follows the program. -/
theorem compile_simulates {tokens : List Token} {p : Program Span}
    (hparse : parse tokens = .ok p) {a : Allocator} (ha : a.WellFormed) {unit text : String}
    (hcompile : a.compile unit p = .ok text) :
    ∃ codes, text = programText unit p.segments codes ∧
      List.Forall₂ (fun fn code => ∀ {V W : Type} (I : Interp V W) (fresh : Nat → Slots V)
          (args : List V) (σ : Store V W), (∀ k v, args[k]? = some v → σ.received k = v) →
            Follows p codes I fresh fn code args σ) p.functions codes := by
  obtain ⟨codes, hcodes, htext⟩ := Allocator.compile_eq_ok hcompile
  have hboth := (List.forall₂_and_left _ _).mpr ⟨parse_wellFormed hparse, hcodes⟩
  have htranslates : List.Forall₂ Translates p.functions codes :=
    hboth.imp fun _ _ h => h.2.translates ha h.1
  refine ⟨codes, htext, htranslates.imp fun fn code hcode V W I fresh args σ hargs => ?_⟩
  exact hcode.follows htranslates I fresh hargs

theorem compile_simulates_sample :
    ∃ text code, Sample.allocator.compile "  " Sample.program = .ok text ∧
      text = programText "  " Sample.program.segments [code] ∧
      ∀ (fresh : Nat → Slots Int) (σ : Store Int Unit),
        (∀ k v, [1, 7, 5, 0, 0][k]? = some v → σ.received k = v) →
          ∃ k σ', steps (Machine.step Sample.interp fresh [code]) k (.running code ⟨0, σ⟩ [] 0)
              = some (.returned σ') ∧ σ'.regs .result = 5 := by
  obtain ⟨text, htext⟩ : ∃ text, Sample.allocator.compile "  " Sample.program = .ok text := ⟨_, rfl⟩
  obtain ⟨codes, hcodes, hfollows⟩ :=
    compile_simulates Sample.parse_tokens Sample.wellFormed_allocator htext
  cases hfollows with
  | @cons _ code _ codes hfollows hnil =>
    cases hnil
    refine ⟨text, code, htext, hcodes, fun fresh σ hargs => ?_⟩
    -- the function calls itself once, and what it returns is the argument for `b`
    obtain ⟨k, σ', hsteps, -, hresult, -⟩ :=
      (hfollows Sample.interp fresh _ σ hargs).returns 8 (some 5) _ rfl
    exact ⟨k, σ', hsteps, hresult 5 rfl⟩

end Vapor
