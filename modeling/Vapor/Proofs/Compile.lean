/-
Vapor/Proofs/Compile.lean

When a program can be compiled (`compile_succeeds_iff`).  Two things can go wrong: a jump
goes to a label that its function does not have, or an operation is applied to more
variables in slots than there are scratch registers.  Nothing else does.  Liveness,
intervals and lines agree on which variables there are, so every variable has a place;
the places of the linear scan are accepted; and whatever is borrowed is given back.  So
the first function with one of the two faults decides on the error, and if there is none
then the program is compiled.
-/
import Vapor.Proofs.Emission.Failure
import Vapor.Proofs.Emission.Function
import Vapor.Proofs.Emission.Levels

namespace Vapor

open Text

variable {α : Type}

/-! ### Jumps to unknown labels -/

namespace Function

/-- The first jump to a label that the function does not have. -/
def stray? (fn : Function α) : Option (Ref α) :=
  (fn.body.filterMap Instr.target?).find? fun label => (fn.indexOf? label.name).isNone

variable {fn : Function α} {label : Ref α}

theorem stray?_eq_none : fn.stray? = none ↔ fn.JumpsInside := by
  simp only [stray?, JumpsInside, List.find?_eq_none, List.mem_filterMap, Option.mem_def]
  constructor
  · intro h instr hinstr label hlabel
    have hsome := h label ⟨instr, hinstr, hlabel⟩
    simpa [Option.isSome_iff_ne_none] using hsome
  · rintro h label ⟨instr, hinstr, hlabel⟩
    have hsome := h instr hinstr label hlabel
    simpa [Option.isSome_iff_ne_none] using hsome

theorem successors_of_unknown {i : Nat} {instr : Instr α} (htarget : instr.target? = some label)
    (hlabel : fn.indexOf? label.name = none) :
    fn.successors i instr = .error (.unknownLabel label.name fn.name label.note) := by
  have herror : fn.target label = .error (.unknownLabel label.name fn.name label.note) := by
    rw [target, hlabel]
  cases instr with
  | goto target =>
    obtain rfl := Option.some.inj htarget
    rw [successors, herror]
    rfl
  | branch test positive target =>
    obtain rfl := Option.some.inj htarget
    rw [successors, herror]
    rfl
  | assign | call | apply | store | load | ret => cases htarget

theorem successorsFrom_of_stray {index : Nat} {instrs : List (Instr α)}
    (h : ((instrs.filterMap Instr.target?).find? fun label =>
      (fn.indexOf? label.name).isNone) = some label) :
    fn.successorsFrom index instrs = .error (.unknownLabel label.name fn.name label.note) := by
  induction instrs generalizing index with
  | nil => cases h
  | cons instr rest ih =>
    -- an instruction that does not jump astray has successors
    have hnext : (∀ l ∈ instr.target?, (fn.indexOf? l.name).isSome) →
        ((rest.filterMap Instr.target?).find? fun label =>
          (fn.indexOf? label.name).isNone) = some label →
        fn.successorsFrom index (instr :: rest)
          = .error (.unknownLabel label.name fn.name label.note) := by
      intro htarget hrest
      obtain ⟨next, hnext⟩ := exists_successors htarget index
      rw [successorsFrom, hnext]
      show (fn.successorsFrom (index + 1) rest >>= _) = _
      rw [ih hrest]
      rfl
    rcases htarget : instr.target? with - | first
    · rw [List.filterMap_cons_none htarget] at h
      exact hnext (by simp [htarget]) h
    · rw [List.filterMap_cons_some htarget, List.find?_cons] at h
      split at h
      · obtain rfl := Option.some.inj h
        rw [successorsFrom, successors_of_unknown htarget (Option.isNone_iff_eq_none.mp ‹_›)]
        rfl
      · refine hnext (fun l hl => ?_) h
        obtain rfl : first = l := Option.some.inj (htarget.symm.trans hl)
        exact Option.isNone_eq_false_iff.mp ‹_›

/-- Liveness is not defined if there is a jump to an unknown label. -/
theorem liveness_of_stray (h : fn.stray? = some label) :
    fn.liveness = .error (.unknownLabel label.name fn.name label.note) := by
  rw [liveness, nodes, allSuccessors, successorsFrom_of_stray h]
  rfl

/-- It is defined if there is none. -/
theorem exists_liveness (hwf : fn.WellFormed) (hjumps : fn.JumpsInside) :
    ∃ live, fn.liveness = .ok live := by
  obtain ⟨nodes, hnodes⟩ := exists_nodes hwf hjumps
  exact ⟨_, bind_eq_ok.mpr ⟨nodes, hnodes, rfl⟩⟩

end Function

/-! ### Functions -/

/-- The lines of the prologue and of the first instructions. -/
def Emit.upTo (fn : Function α) (m : Allocation) (live : Liveness) (count : Nat) : Gen α Unit := do
  prologue fn m live
  body fn m live 0 (fn.body.take count)

namespace Allocator

/-- The function can be compiled: every jump goes to a label of the function, and no
operation needs more scratch registers than there are. -/
structure Suits (a : Allocator) (fn : Function α) : Prop where
  jumps : fn.JumpsInside
  slots : ∀ live m, fn.liveness = .ok live → a.allocate live = .ok m →
    ∀ i ∈ fn.body, i.slotOperands m ≤ 3

/-- What is wrong with a function that cannot be compiled. -/
inductive Fault (a : Allocator) (fn : Function α) : CompileError α → Prop where
  | stray {label : Ref α} (hlabel : fn.stray? = some label) :
      Fault a fn (.flow (.unknownLabel label.name fn.name label.note))
  | crowded {live : Liveness} {m : Allocation} {i : Instr α} (hjumps : fn.JumpsInside)
      (hlive : fn.liveness = .ok live) (hm : a.allocate live = .ok m) (hi : i ∈ fn.body)
      (hslots : 3 < i.slotOperands m) :
      Fault a fn (.emission (.pool (.exhausted Register.scratches)))

variable {a : Allocator} {fn : Function α}

theorem Fault.not_suits {e : CompileError α} (h : a.Fault fn e) : ¬ a.Suits fn := by
  intro hsuits
  cases h with
  | stray hlabel =>
    rw [Function.stray?_eq_none.mpr hsuits.jumps] at hlabel
    cases hlabel
  | crowded _ hlive hm hi hslots =>
    have hle := hsuits.slots _ _ hlive hm _ hi
    omega

/-- A function without stray jumps gets a liveness and places for all its variables. -/
theorem exists_places (ha : ∀ r ∈ a.registers, r.isAllocatable = true) (hwf : fn.WellFormed)
    (hjumps : fn.JumpsInside) :
    ∃ live m, fn.liveness = .ok live ∧ a.allocate live = .ok m ∧ m.WellFormed ∧
      ∀ i ∈ fn.body, ∀ x, x ∈ i.uses ∨ x ∈ i.defs → ∃ l, m.location? x = some l := by
  obtain ⟨live, hlive⟩ := Function.exists_liveness hwf hjumps
  have hm := allocate_of_allocatable ha live
  refine ⟨live, _, hlive, hm, Allocation.wellFormed_of_ofPlaces hm, fun i hi x hx => ?_⟩
  exact exists_location?_of_interval a ((Function.mem_names_intervals hwf hlive).mpr ⟨i, hi, hx⟩)

/-- **A function without faults is written**, and all scratch registers are free after the
prologue and after each instruction. -/
theorem Suits.emission (h : a.Suits fn) (ha : ∀ r ∈ a.registers, r.isAllocatable = true)
    (hwf : fn.WellFormed) :
    ∃ live m, fn.liveness = .ok live ∧ a.allocate live = .ok m ∧
      (∃ code, a.emission fn = .ok ⟨code, Pool.scratch, .ok (fn.frame m live)⟩) ∧
      ∀ count, ∃ code, (Emit.upTo fn m live count).run Pool.scratch
        = ⟨code, Pool.scratch, .ok ()⟩ := by
  obtain ⟨live, m, hlive, hm, hplaces, hx⟩ := exists_places ha hwf h.jumps
  have hslots := h.slots live m hlive hm
  refine ⟨live, m, hlive, hm, ?_, fun count => ?_⟩
  · obtain ⟨code, hcode⟩ := Emit.function_succeeds hplaces fn live hx hslots
    exact ⟨code, (emission_of_places hlive hm).trans (congrArg Except.ok hcode)⟩
  · refine Emit.leads_bind (Emit.leads_prologue fn m live) (Emit.leads_body fun j i hj => ?_)
    have hi := List.mem_of_mem_take (List.mem_of_getElem? hj)
    exact Emit.leads_instr hplaces _ (hx i hi) (hslots i hi)

/-- **A function with a fault is not written.** -/
theorem writeFunction_of_not_suits (h : ¬ a.Suits fn)
    (ha : ∀ r ∈ a.registers, r.isAllocatable = true) (hwf : fn.WellFormed) (s : Sheet) :
    ∃ s' e, a.writeFunction s fn = (s', .error e) ∧ a.Fault fn e := by
  rcases hstray : fn.stray? with - | label
  · -- every variable has a place, so some operation is applied to too many of them in slots
    have hjumps := Function.stray?_eq_none.mp hstray
    obtain ⟨live, m, hlive, hm, hplaces, hx⟩ := exists_places ha hwf hjumps
    obtain ⟨i, hi, hslots⟩ : ∃ i ∈ fn.body, 3 < i.slotOperands m := by
      by_contra hnone
      refine h ⟨hjumps, fun live' m' hlive' hm' i hi => ?_⟩
      obtain rfl : live = live' := Except.ok.inj (hlive.symm.trans hlive')
      obtain rfl : m = m' := Except.ok.inj (hm.symm.trans hm')
      exact Nat.le_of_not_lt fun hlt => hnone ⟨i, hi, hlt⟩
    have hfails : ((Emit.function fn m live).run Pool.scratch).result = .error Emit.noneLeft :=
      Emit.function_fails hplaces fn live hx ⟨i, hi, hslots⟩
    refine ⟨s.writeEmission ((Emit.function fn m live).run Pool.scratch), _, ?_,
      .crowded hjumps hlive hm hi hslots⟩
    rw [writeFunction, emission_of_places hlive hm]
    dsimp only
    rw [hfails]
    rfl
  · refine ⟨s, _, ?_, .stray hstray⟩
    rw [writeFunction, Allocator.emission, Function.liveness_of_stray hstray]
    rfl

theorem writeFunction_of_suits (h : a.Suits fn)
    (ha : ∀ r ∈ a.registers, r.isAllocatable = true) (hwf : fn.WellFormed) (s : Sheet) :
    ∃ s', a.writeFunction s fn = (s', .ok ()) := by
  obtain ⟨live, m, -, -, ⟨code, hcode⟩, -⟩ := h.emission ha hwf
  exact ⟨_, by rw [writeFunction, hcode]; rfl⟩

/-! ### Programs -/

/-- The first function with a fault is found. -/
theorem writeFunctions_spec (ha : ∀ r ∈ a.registers, r.isAllocatable = true)
    {fns : List (Function α)} (hwf : ∀ fn ∈ fns, fn.WellFormed) (s : Sheet) (first : Bool) :
    (∃ s', a.writeFunctions s first fns = (s', .ok ()) ∧ ∀ fn ∈ fns, a.Suits fn) ∨
      ∃ s' e before fn after, a.writeFunctions s first fns = (s', .error e) ∧
        fns = before ++ fn :: after ∧ (∀ g ∈ before, a.Suits g) ∧ a.Fault fn e := by
  induction fns generalizing s first with
  | nil => exact .inl ⟨s, rfl, fun fn hfn => by cases hfn⟩
  | cons fn fns ih =>
    have hfirst := hwf fn List.mem_cons_self
    by_cases hsuits : a.Suits fn
    · obtain ⟨s₁, hwrite⟩ :=
        writeFunction_of_suits hsuits ha hfirst (if first then s else s.writeLine "")
      have hrest : a.writeFunctions s first (fn :: fns) = a.writeFunctions s₁ false fns := by
        rw [writeFunctions, hwrite]
      rcases ih (fun g hg => hwf g (List.mem_cons_of_mem _ hg)) s₁ false with
        ⟨s', heq, hall⟩ | ⟨s', e, before, g, after, heq, rfl, hbefore, hfault⟩
      · exact .inl ⟨s', hrest.trans heq, List.forall_mem_cons.mpr ⟨hsuits, hall⟩⟩
      · exact .inr ⟨s', e, fn :: before, g, after, hrest.trans heq, rfl,
          List.forall_mem_cons.mpr ⟨hsuits, hbefore⟩, hfault⟩
    · obtain ⟨s', e, hwrite, hfault⟩ :=
        writeFunction_of_not_suits hsuits ha hfirst (if first then s else s.writeLine "")
      refine .inr ⟨s', e, [], fn, fns, ?_, rfl, List.forall_mem_nil _, hfault⟩
      rw [writeFunctions, hwrite]

theorem compile_spec (ha : ∀ r ∈ a.registers, r.isAllocatable = true) {p : Program α}
    (hwf : ∀ fn ∈ p.functions, fn.WellFormed) (unit : String) :
    (∃ text, a.compile unit p = .ok text ∧ ∀ fn ∈ p.functions, a.Suits fn) ∨
      ∃ e before fn after, a.compile unit p = .error e ∧ p.functions = before ++ fn :: after ∧
        (∀ g ∈ before, a.Suits g) ∧ a.Fault fn e := by
  unfold compile writeProgram
  rcases writeFunctions_spec ha hwf (Sheet.writeSegments { unit := unit } p.segments) true with
    ⟨s', heq, hall⟩ | ⟨s', e, before, fn, after, heq, hsplit, hbefore, hfault⟩
  · exact .inl ⟨s'.text, by rw [heq], hall⟩
  · exact .inr ⟨e, before, fn, after, by rw [heq], hsplit, hbefore, hfault⟩

end Allocator

/-- **When a program can be compiled.**  A program that has been read is compiled, with any
registers for variables and any indentation, if and only if every jump goes to a label of
its function and no operation is applied to more than three variables in slots, the
destination and repeated operands counted.  If it is not, then the error is that of the
first function with a fault: the first jump to an unknown label, or if there is none,
that all scratch registers are in use.  If it is, then in each function all scratch
registers are free after the prologue and after every instruction.  And in either case no
level of indentation is left that was not entered. -/
theorem compile_succeeds_iff {tokens : List Token} {p : Program Span}
    (hparse : parse tokens = .ok p) {a : Allocator}
    (ha : ∀ r ∈ a.registers, r.isAllocatable = true) (unit : String) :
    ((∃ text, a.compile unit p = .ok text) ↔ ∀ fn ∈ p.functions, a.Suits fn) ∧
      (∀ e, a.compile unit p = .error e → ∃ before fn after,
        p.functions = before ++ fn :: after ∧ (∀ g ∈ before, a.Suits g) ∧ a.Fault fn e) ∧
      (∀ text, a.compile unit p = .ok text → ∀ fn ∈ p.functions, ∃ live m,
        fn.liveness = .ok live ∧ a.allocate live = .ok m ∧
          ∀ count, ∃ code pool, (Emit.upTo fn m live count).run Pool.scratch
            = ⟨code, pool, .ok ()⟩ ∧ pool.isIdle = true) ∧
      a.writeProgram? { unit := unit } p = some (a.writeProgram { unit := unit } p) := by
  have hwf := parse_wellFormed hparse
  have hspec := Allocator.compile_spec ha hwf unit
  have hsuits : ∀ text, a.compile unit p = .ok text → ∀ fn ∈ p.functions, a.Suits fn := by
    intro text htext
    rcases hspec with ⟨-, -, hall⟩ | ⟨e, before, fn, after, herror, -⟩
    · exact hall
    · rw [herror] at htext
      cases htext
  refine ⟨⟨?_, ?_⟩, ?_, ?_, Allocator.writeProgram?_eq a _ p⟩
  · rintro ⟨text, htext⟩
    exact hsuits text htext
  · intro hall
    rcases hspec with ⟨text, htext, -⟩ | ⟨e, before, fn, after, -, hsplit, -, hfault⟩
    · exact ⟨text, htext⟩
    · have hfn : fn ∈ p.functions := by
        rw [hsplit]
        exact List.mem_append_right _ List.mem_cons_self
      exact absurd (hall fn hfn) hfault.not_suits
  · intro e herror
    rcases hspec with ⟨text, htext, -⟩ | ⟨e', before, fn, after, herror', hrest⟩
    · rw [herror] at htext
      cases htext
    · obtain rfl : e' = e := Except.error.inj (herror'.symm.trans herror)
      exact ⟨before, fn, after, hrest⟩
  · intro text htext fn hfn
    obtain ⟨live, m, hlive, hm, -, hidle⟩ := (hsuits text htext fn hfn).emission ha (hwf fn hfn)
    refine ⟨live, m, hlive, hm, fun count => ?_⟩
    obtain ⟨code, hcode⟩ := hidle count
    exact ⟨code, Pool.scratch, hcode, rfl⟩

namespace Sample

/-- An allocator that has a register twice. -/
def repeating : Allocator :=
  ⟨[unsaved, unsaved], [saved]⟩

/-- An allocator without registers. -/
def registerless : Allocator :=
  ⟨[], []⟩

/-- The tokens of a program that applies an operation to three variables. -/
def mixTokens : List Token :=
  [token .func "func", ident "Mix", token .lparen "(", ident "a", ident "b", ident "c",
    token .rparen ")", newline] ++
  [ident "d", token .assign "=", ident "Mix", token .lparen "(", ident "a", ident "b", ident "c",
    token .rparen ")", newline] ++
  [token .ret "ret", ident "d", newline, token .eof ""]

/-- The function of this program. -/
def mixFunction : Function Span where
  name := "Mix"
  params := [ref "a", ref "b", ref "c"]
  body :=
    [.apply (some (ref "d")) "Mix" [.var (ref "a"), .var (ref "b"), .var (ref "c")] span,
      .ret (some (.var (ref "d"))) span]
  labels := []
  note := span

theorem parse_mixTokens : parse mixTokens = .ok ⟨[], [mixFunction], span⟩ := by
  rfl

end Sample

theorem compile_succeeds_iff_sample :
    (∃ text, Sample.repeating.compile "  " Sample.program = .ok text) ∧
      ∃ e, Sample.registerless.compile "" ⟨[], [Sample.mixFunction], Sample.span⟩ = .error e ∧
        ∃ before fn after, [Sample.mixFunction] = before ++ fn :: after ∧
          (∀ g ∈ before, Sample.registerless.Suits g) ∧ Sample.registerless.Fault fn e := by
  constructor
  · refine (compile_succeeds_iff Sample.parse_tokens (a := Sample.repeating) (by decide)
      "  ").1.mpr fun fn hfn => ?_
    obtain rfl := List.mem_singleton.mp hfn
    obtain ⟨live, m, hlive, hm, hslots⟩ : ∃ live m, Sample.function.liveness = .ok live ∧
        Sample.repeating.allocate live = .ok m ∧
        ∀ i ∈ Sample.function.body, i.slotOperands m ≤ 3 := ⟨_, _, rfl, rfl, by decide⟩
    refine ⟨by decide, fun live' m' hlive' hm' => ?_⟩
    obtain rfl : live = live' := Except.ok.inj (hlive.symm.trans hlive')
    obtain rfl : m = m' := Except.ok.inj (hm.symm.trans hm')
    exact hslots
  · -- the three operands take all scratch registers, and none is left for the result
    refine ⟨.emission (.pool (.exhausted Register.scratches)), rfl, ?_⟩
    exact (compile_succeeds_iff Sample.parse_mixTokens (by decide) "").2.1 _ rfl

end Vapor
