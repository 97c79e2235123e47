/-
Vapor/Proofs/Emission/Simulation.lean

The lines of a function do what the function does.  `Fits` relates a state of the
function to a state of its code: the code is at the lines of the next instruction,
every live variable that has been written is in its place, and the values that
callee-saved registers had on entry are not lost.  There are four lemmas, for
entering the function and for the three outcomes of an instruction; calls are
answered by anything that keeps the calling convention.
-/
import Vapor.Proofs.Emission.Layout

namespace Vapor

variable {α V W : Type}

/-! ### Liveness along steps -/

/-- Control may go on to the next instruction. -/
def Instr.FallsThrough : Instr α → Prop
  | .goto _ _ => False
  | .ret _ _ => False
  | _ => True

namespace Function

variable {fn : Function α} {live : Liveness} {i j : Nat} {instr : Instr α} {x : String}

theorem lt_length_of_mem_liveIn (hlive : fn.liveness = .ok live) (hx : x ∈ live.liveIn i) :
    i < fn.body.length := by
  by_contra hle
  have hnone : live.rows[i]? = none := List.getElem?_eq_none (by rw [length_rows hlive]; omega)
  rw [Liveness.liveIn, hnone] at hx
  cases hx

/-- If liveness is defined then so are the successors of every instruction. -/
theorem exists_successors_of_liveness (hlive : fn.liveness = .ok live)
    (hi : fn.body[i]? = some instr) : ∃ next, fn.successors i instr = .ok next := by
  obtain ⟨nodes, hnodes, -⟩ := liveness_eq_ok hlive
  obtain ⟨hlt, rfl⟩ := List.getElem?_eq_some_iff.mp hi
  obtain ⟨next, hnext, -⟩ := (nodes_eq_ok hnodes).get (i := i) (by simpa using hlt)
    (by rwa [length_nodes hnodes])
  exact ⟨next, by simpa using hnext⟩

theorem mem_liveOut_of_flows (hwf : fn.WellFormed) (hlive : fn.liveness = .ok live)
    (hflows : fn.Flows i j) (hx : x ∈ live.liveIn j) : x ∈ live.liveOut i :=
  ((flowSolution hwf hlive).outs_iff i x).mpr ⟨j, hflows, hx⟩

/-- What is live before the next instruction is live after this one. -/
theorem mem_liveOut_of_fallsThrough (hwf : fn.WellFormed) (hlive : fn.liveness = .ok live)
    (hi : fn.body[i]? = some instr) (hfalls : instr.FallsThrough) (hx : x ∈ live.liveIn (i + 1)) :
    x ∈ live.liveOut i := by
  have hlt := lt_length_of_mem_liveIn hlive hx
  have hmem : ((i + 1 : Nat) : Int) ∈ fn.within (i + 1) := mem_within.mpr ⟨rfl, by omega⟩
  obtain ⟨next, hnext⟩ := exists_successors_of_liveness hlive hi
  refine mem_liveOut_of_flows hwf hlive ⟨instr, next, hi, hnext, ?_⟩ hx
  cases instr with
  | goto | ret => exact hfalls.elim
  | branch test positive label note =>
    obtain ⟨index, -, heq⟩ := bind_eq_ok.mp hnext
    obtain rfl := Except.ok.inj heq
    exact List.mem_eraseDups.mpr (List.mem_append_left _ hmem)
  | assign | call | apply | store | load =>
    obtain rfl := Except.ok.inj hnext
    exact hmem

/-- What is live where a jump goes to is live after the jump. -/
theorem mem_liveOut_of_jump (hwf : fn.WellFormed) (hlive : fn.liveness = .ok live)
    (hi : fn.body[i]? = some instr) {label : Ref α} (htarget : instr.target? = some label)
    (hj : fn.labelled? label.name = some j) (hx : x ∈ live.liveIn j) : x ∈ live.liveOut i := by
  have hlt := lt_length_of_mem_liveIn hlive hx
  have hindex := labelled?_eq_some hj
  have hmem : (j : Int) ∈ fn.within j := mem_within.mpr ⟨rfl, by omega⟩
  obtain ⟨next, hnext⟩ := exists_successors_of_liveness hlive hi
  refine mem_liveOut_of_flows hwf hlive ⟨instr, next, hi, hnext, ?_⟩ hx
  cases instr with
  | assign | call | apply | store | load | ret => cases htarget
  | goto label' note =>
    obtain rfl : label' = label := Option.some.inj htarget
    obtain ⟨index, hindex', heq⟩ := bind_eq_ok.mp hnext
    obtain rfl := Except.ok.inj heq
    obtain rfl := Option.some.inj (hindex.symm.trans (target_eq_ok.mp hindex'))
    exact hmem
  | branch test positive label' note =>
    obtain rfl : label' = label := Option.some.inj htarget
    obtain ⟨index, hindex', heq⟩ := bind_eq_ok.mp hnext
    obtain rfl := Except.ok.inj heq
    obtain rfl := Option.some.inj (hindex.symm.trans (target_eq_ok.mp hindex'))
    exact List.mem_eraseDups.mpr (List.mem_append_right _ hmem)

theorem mem_across (hwf : fn.WellFormed) (hlive : fn.liveness = .ok live)
    (hi : fn.body[i]? = some instr) :
    x ∈ live.across i ↔ x ∈ live.liveOut i ∧ instr.dest? ≠ some x := by
  rw [Liveness.across, getElem?_rows hwf hlive, hi]
  simp only [Option.map_some, Option.getD_some, Liveness.Row.across, Names.mem_diff,
    Instr.mem_defs, ne_eq]

end Function

namespace Machine

/-! ### Runs of code -/

/-- A step that stays within the activation. -/
def next (I : Interp V W) (code : List Line) (t : State V W) : Option (State V W) :=
  match exec I code t with
  | some (.next t') => some t'
  | _ => none

variable {I : Interp V W} {code more : List Line} {line : Nat} {σ σ' : Store V W} {l : Line}

theorem exec_of_next {t t' : State V W} (h : next I code t = some t') :
    exec I code t = some (.next t') := by
  unfold next at h
  split at h
  · rename_i t'' hexec
    rw [hexec, Option.some.inj h]
  · cases h

theorem exec_of_drop (h : code.drop line = l :: more) (σ : Store V W) :
    exec I code ⟨line, σ⟩ = execLine I code ⟨line, σ⟩ l := by
  have hl : code[line]? = some l := by
    have hhead := congrArg List.head? h
    rwa [List.head?_drop] at hhead
  unfold exec
  rw [hl]
  rfl

theorem next_effect (h : code.drop line = l :: more) (heff : l.effect? I σ = some σ') :
    next I code ⟨line, σ⟩ = some ⟨line + 1, σ'⟩ := by
  unfold next
  rw [exec_of_drop h]
  cases l with
  | header | label | assign | apply =>
    obtain rfl := Option.some.inj heff
    rfl
  | call | branch | goto | ret => cases heff

/-- Straight lines are executed one after the other. -/
theorem steps_effects {ls : List Line} (h : code.drop line = ls ++ more)
    (heff : effects? I ls σ = some σ') :
    steps (next I code) ls.length ⟨line, σ⟩ = some ⟨line + ls.length, σ'⟩ ∧
      code.drop (line + ls.length) = more := by
  induction ls generalizing line σ with
  | nil =>
    obtain rfl := Option.some.inj heff
    exact ⟨rfl, h⟩
  | cons l ls ih =>
    obtain ⟨σ₁, heff₁, heff₂⟩ := Option.bind_eq_some_iff.mp heff
    have hrest : code.drop (line + 1) = ls ++ more := by
      rw [← List.drop_drop, h]
      rfl
    obtain ⟨hsteps, hdrop⟩ := ih hrest heff₂
    rw [List.length_cons, show line + (ls.length + 1) = line + 1 + ls.length by omega]
    refine ⟨?_, hdrop⟩
    rw [steps, next_effect h heff₁, Option.bind_some, hsteps]

theorem next_goto {target : String} {k : Nat} (h : code.drop line = .goto target :: more)
    (hk : labelled? code target = some k) (σ : Store V W) :
    next I code ⟨line, σ⟩ = some ⟨k, σ⟩ := by
  unfold next
  rw [exec_of_drop h, execLine, hk]
  rfl

theorem next_branch {positive : Bool} {test : Value} {target : String} {r : Bool × Outside V W}
    {k : Nat} (h : code.drop line = .branch positive test target :: more)
    (hr : I.branch positive (test.eval I σ) σ.outside = r)
    (hk : (if r.1 then labelled? code target else some (line + 1)) = some k) :
    next I code ⟨line, σ⟩ = some ⟨k, σ.setOutside r.2⟩ := by
  unfold next
  rw [exec_of_drop h]
  simp only [execLine, hr, hk]
  rfl

theorem effects?_labels (names : List String) (σ : Store V W) :
    effects? I (names.map .label) σ = some σ := by
  induction names with
  | nil => rfl
  | cons name names ih => exact ih

end Machine

namespace Emit

open Machine

/-! ### Registers kept across calls -/

section Kept

variable {m : Allocation} {live : Liveness} {i : Nat}

theorem mem_keptAcross {r : Register} :
    r ∈ m.keptAcross live i ↔
      r.isCallerSaved = true ∧ ∃ x ∈ live.across i, m.location? x = some (.register r) := by
  simp only [Allocation.keptAcross, List.mem_filter, List.any_eq_true, beq_iff_eq,
    Allocation.location?_eq_register]
  refine and_congr_left fun _ => ⟨fun h => ?_, fun h => ?_⟩
  · obtain ⟨j, -, rfl⟩ := List.mem_map.mp h
    rfl
  · cases r with
    | callerSaved j => exact List.mem_map_of_mem (List.mem_finRange j)
    | argument | result | calleeSaved | scratch => cases h

theorem nodup_keptAcross (m : Allocation) (live : Liveness) (i : Nat) :
    (m.keptAcross live i).Nodup := by
  refine List.Nodup.filter _ ?_
  decide

/-- Every variable that must survive a call does. -/
theorem survives_of_across (hm : m.WellFormed) {x : String} (hx : x ∈ live.across i)
    {l : Location} (hl : m.location? x = some l) : Survives m (m.keptAcross live i) l := by
  cases l with
  | slot k => exact Allocation.slot_lt_slotCount hl
  | register r =>
    have halloc := hm.isAllocatable hl
    rw [Register.isAllocatable, Bool.or_eq_true] at halloc
    exact halloc.imp (fun hr => mem_keptAcross.mpr ⟨hr, x, hx, hl⟩) id

end Kept

/-! ### Matching states -/

/-- A function that has been written with places that keep interfering variables
apart. -/
structure Lowered (fn : Function α) (m : Allocation) (live : Liveness) (code : List Line) :
    Prop where
  wellFormed : fn.WellFormed
  liveness : fn.liveness = .ok live
  places : m.WellFormed
  /-- A variable is written nowhere where another one with the same place is live. -/
  separate : ∀ i x y, x ∈ fn.defsAt i → y ∈ live.liveOut i → y ≠ x →
    m.location? x ≠ m.location? y
  params : ParamsApart m live fn.params
  gives : ∃ frame, (function fn m live).Gives Pool.scratch code Pool.scratch frame

/-- A state of a function and a state of its code match.  `entry` is what the
registers held on entry. -/
structure Fits (fn : Function α) (m : Allocation) (live : Liveness) (code : List Line)
    (entry : Register → V) (s : Source.State V W) (t : State V W) : Prop where
  line : code.drop t.line = remaining fn m live s.index
  outside : t.store.outside = s.outside
  /-- Every live variable that has been written is in its place. -/
  places : ∀ x ∈ live.liveIn s.index, m.InPlace s.vars t.store x
  saved : ∀ r, r.isCalleeSaved = true → m.onEntry t.store r = entry r

variable {fn : Function α} {m : Allocation} {live : Liveness} {code : List Line}
  {entry : Register → V} {I : Interp V W} {s s' : Source.State V W} {t : State V W}
  {i : Instr α}

theorem Lowered.code_eq (h : Lowered fn m live code) :
    code = head fn m live ++ (labelLines fn 0 ++ remaining fn m live 0) := by
  obtain ⟨frame, hgives⟩ := h.gives
  exact (function_spec h.places hgives).1

theorem Lowered.gives_instr (h : Lowered fn m live code) {index : Nat}
    (hi : fn.body[index]? = some i) :
    (instr m (i.kept m live index) i).Gives Pool.scratch (group m live index i)
      Pool.scratch () := by
  obtain ⟨frame, hgives⟩ := h.gives
  exact (function_spec h.places hgives).2.2.2 index i hi

/-- The variables that the next instruction reads are in their places. -/
theorem Fits.uses (hlow : Lowered fn m live code) (hfits : Fits fn m live code entry s t)
    (hi : fn.body[s.index]? = some i) {x : String} (hx : x ∈ i.uses) :
    m.InPlace s.vars t.store x := by
  refine hfits.places x ?_
  refine ((Function.flowSolution hlow.wellFormed hlow.liveness).ins_iff _ _).mpr (.inl ?_)
  rwa [Function.usesAt_eq hi]

/-- Once the lines of an instruction have done their work, only labels lie before
the next match.  `P` has all locations that must not change. -/
theorem Fits.advance (hlow : Lowered fn m live code) (hfits : Fits fn m live code entry s t)
    (hi : fn.body[s.index]? = some i) {P : Location → Prop} {σ : Store V W}
    (hadv : Advances m P i.dest? s'.vars s'.outside t.store σ)
    (hacross : ∀ x ∈ live.across s.index, ∀ l, m.location? x = some l → P l)
    (hregs : ∀ r, r.isCalleeSaved = true → P (.register r))
    (hslots : ∀ k, k < m.slotCount → P (.slot k))
    (hvars : ∀ x, i.dest? ≠ some x → s'.vars x = s.vars x)
    (hlive : ∀ x ∈ live.liveIn s'.index, x ∈ live.liveOut s.index)
    {line : Nat} {names : List String}
    (hline : code.drop line = names.map .label ++ remaining fn m live s'.index) :
    ∃ k t', steps (next I code) k ⟨line, σ⟩ = some t' ∧ Fits fn m live code entry s' t' := by
  obtain ⟨hsteps, hdrop⟩ := steps_effects hline (effects?_labels (I := I) names σ)
  have hdest : ∀ {x}, i.dest? = some x → x ∈ fn.defsAt s.index := fun {x} hx => by
    rw [Function.defsAt_eq hi]
    exact Instr.mem_defs.mpr hx
  refine ⟨_, _, hsteps, hdrop, hadv.outside, fun x hx => ?_, fun r hr => ?_⟩
  · by_cases hxd : i.dest? = some x
    · exact hadv.written x hxd
    · have hout := hlive x hx
      have hmem := (Function.mem_across hlow.wellFormed hlow.liveness hi).mpr ⟨hout, hxd⟩
      have hin : x ∈ live.liveIn s.index := by
        refine ((Function.flowSolution hlow.wellFormed hlow.liveness).ins_iff _ _).mpr
          (.inr ⟨hout, fun hdef => hxd ?_⟩)
        rw [Function.defsAt_eq hi] at hdef
        exact Instr.mem_defs.mp hdef
      -- the place of the destination is another one, so the value is still there
      have hplace : m.InPlace s.vars σ x := by
        refine (hfits.places x hin).congr fun l hl => hadv.rest l (hacross x hmem l hl) ?_
        intro y hy hyl
        refine hlow.separate s.index y x (hdest hy) hout ?_ (hyl.trans hl.symm)
        rintro rfl
        exact hxd hy
      intro v l hv hl
      rw [hvars x hxd] at hv
      exact hplace v l hv hl
  · refine (onEntry_congr (fun q hq hnot => ?_) (fun k hk => ?_) hr).trans (hfits.saved r hr)
    · refine hadv.rest (.register q) (hregs q hq) fun x _ hxl => ?_
      exact hnot (Allocation.mem_calleeSaved_of_location? hxl hq)
    · have hcount := Allocation.length_calleeSaved_le m
      refine hadv.rest (.slot k) (hslots k (by omega)) fun x _ hxl => ?_
      exact absurd (hlow.places.length_le_slot hxl) (by omega)

/-! ### Steps -/

/-- An instruction all of whose lines are straight. -/
theorem Fits.straight (hlow : Lowered fn m live code) (hfits : Fits fn m live code entry s t)
    (hi : fn.body[s.index]? = some i) (hfalls : i.FallsThrough)
    (hne : group m live s.index i ≠ []) {σ : Store V W}
    (heff : effects? I (group m live s.index i) t.store = some σ)
    (hadv : Advances m Lasting i.dest? s'.vars s'.outside t.store σ)
    (hvars : ∀ x, i.dest? ≠ some x → s'.vars x = s.vars x) (hindex : s'.index = s.index + 1) :
    ∃ k t', 0 < k ∧ steps (next I code) k t = some t' ∧ Fits fn m live code entry s' t' := by
  have hline := hfits.line
  rw [remaining_eq hi] at hline
  obtain ⟨hsteps, hdrop⟩ := steps_effects hline heff
  obtain ⟨k, t', hsteps', hfits'⟩ := hfits.advance (I := I) hlow hi hadv
    (fun x _ l hl => lasting_of_location? hlow.places hl) (fun r hr => lasting_calleeSaved hr)
    (fun k _ => lasting_slot k) hvars
    (fun x hx => Function.mem_liveOut_of_fallsThrough hlow.wellFormed hlow.liveness hi hfalls
      (hindex ▸ hx))
    (hdrop.trans (by rw [hindex]; rfl))
  refine ⟨_, t', ?_, steps_trans hsteps hsteps', hfits'⟩
  have := List.length_pos_iff.mpr hne
  omega

/-- A jump, or a conditional one that is not taken. -/
theorem Fits.jump (hlow : Lowered fn m live code) (hfits : Fits fn m live code entry s t)
    (hi : fn.body[s.index]? = some i) (hdest : i.dest? = none) {σ : Store V W}
    (hsame : t.store.SameBut Register.scratches σ) {index : Nat} {o : Outside V W}
    (hlive : ∀ x ∈ live.liveIn index, x ∈ live.liveOut s.index)
    {line : Nat} {names : List String}
    (hline : code.drop line = names.map .label ++ remaining fn m live index) :
    ∃ k t', steps (next I code) k ⟨line, σ.setOutside o⟩ = some t' ∧
      Fits fn m live code entry (s.goTo index o) t' := by
  have hadv : Advances m Lasting i.dest? (s.goTo index o).vars (s.goTo index o).outside t.store
      (σ.setOutside o) := by
    rw [hdest]
    exact advances_of_sameBut (fun _ h => h) hsame s.vars o
  exact hfits.advance hlow hi hadv
    (fun x _ l hl => lasting_of_location? hlow.places hl) (fun r hr => lasting_calleeSaved hr)
    (fun k _ => lasting_slot k) (fun _ _ => rfl) hlive hline

/-- A jump to a label. -/
theorem Fits.land (hlow : Lowered fn m live code) (hfits : Fits fn m live code entry s t)
    (hi : fn.body[s.index]? = some i) (hdest : i.dest? = none) {label : Ref α}
    (hlabel : i.target? = some label) {index : Nat} (hindex : fn.labelled? label.name = some index)
    {σ : Store V W} (hsame : t.store.SameBut Register.scratches σ) (o : Outside V W) :
    ∃ line k t', labelled? code label.name = some line ∧
      steps (next I code) k ⟨line, σ.setOutside o⟩ = some t' ∧
      Fits fn m live code entry (s.goTo index o) t' := by
  obtain ⟨line, names, hline, hdrop⟩ := labelled?_code hlow.places hlow.wellFormed hindex
    hlow.code_eq
  obtain ⟨k, t', hsteps, hfits'⟩ := hfits.jump (I := I) hlow hi hdest hsame
    (fun x hx => Function.mem_liveOut_of_jump hlow.wellFormed hlow.liveness hi hlabel hindex hx)
    hdrop
  exact ⟨line, k, t', hline, hsteps, hfits'⟩

theorem Fits.goto (hlow : Lowered fn m live code) (hfits : Fits fn m live code entry s t)
    {target : Ref α} {note : α} (hi : fn.body[s.index]? = some (.goto target note))
    (hexec : fn.execInstr I s (.goto target note) = some (.next s')) :
    ∃ k t', 0 < k ∧ steps (Machine.next I code) k t = some t' ∧
      Fits fn m live code entry s' t' := by
  obtain ⟨index, hindex, hexec⟩ := Option.map_eq_some_iff.mp hexec
  obtain rfl := Source.Outcome.next.inj hexec
  have hgroup : group m live s.index (.goto target note) = [.goto target.name] :=
    (gives_line.mp (hlow.gives_instr hi)).1
  have hline := hfits.line
  rw [remaining_eq hi, hgroup] at hline
  obtain ⟨line, k, t', hlabel, hsteps, hfits'⟩ :=
    hfits.land (I := I) hlow hi rfl rfl hindex (.refl _ t.store) s.outside
  have hstep := next_goto (I := I) hline hlabel t.store
  rw [← hfits.outside] at hsteps
  exact ⟨_, t', by omega, steps_trans (steps_one hstep) hsteps, hfits'⟩

theorem Fits.branch (hlow : Lowered fn m live code) (hfits : Fits fn m live code entry s t)
    {test : Operand α} {positive : Bool} {target : Ref α} {note : α}
    (hi : fn.body[s.index]? = some (.branch test positive target note))
    (hexec : fn.execInstr I s (.branch test positive target note) = some (.next s')) :
    ∃ k t', 0 < k ∧ steps (Machine.next I code) k t = some t' ∧
      Fits fn m live code entry s' t' := by
  obtain ⟨v, hv, hexec⟩ := Option.bind_eq_some_iff.mp hexec
  obtain ⟨index, hindex, hexec⟩ := Option.map_eq_some_iff.mp hexec
  obtain rfl := Source.Outcome.next.inj hexec
  obtain ⟨-, ls₀, u, hgroup, heffect⟩ :=
    branch_spec hlow.places Pool.ready_scratch (hlow.gives_instr hi)
  obtain ⟨σ, heff, hsame, hu⟩ := heffect I s.vars t.store v hv fun x hx =>
    hfits.uses hlow hi (Names.mem_ofList.mpr hx)
  have hline := hfits.line
  rw [remaining_eq hi, hgroup, List.append_assoc] at hline
  obtain ⟨hsteps, hdrop⟩ := steps_effects hline heff
  -- both decide on the same value, in the same world
  have hbranch : I.branch positive (u.eval I σ) σ.outside = I.branch positive v s.outside := by
    rw [hu, hsame.outside, hfits.outside]
  by_cases htaken : (I.branch positive v s.outside).1 = true
  · rw [if_pos htaken] at hindex
    obtain ⟨line, k, t', hlabel, hsteps', hfits'⟩ := hfits.land (I := I) hlow hi rfl rfl hindex
      hsame (I.branch positive v s.outside).2
    have hstep := next_branch hdrop hbranch ((if_pos htaken).trans hlabel)
    exact ⟨_, t', by omega, steps_trans hsteps (steps_trans (steps_one hstep) hsteps'), hfits'⟩
  · rw [if_neg htaken] at hindex
    obtain rfl := Option.some.inj hindex
    have hstep := next_branch hdrop hbranch (if_neg htaken)
    have hdrop' : code.drop (t.line + ls₀.length + 1)
        = (fn.labelsAt (s.index + 1 : Nat)).map .label ++ remaining fn m live (s.index + 1) := by
      rw [← List.drop_drop, hdrop]
      rfl
    obtain ⟨k, t', hsteps', hfits'⟩ := hfits.jump (I := I) hlow hi rfl hsame
      (fun x hx => Function.mem_liveOut_of_fallsThrough hlow.wellFormed hlow.liveness hi
        trivial hx) hdrop'
    exact ⟨_, t', by omega, steps_trans hsteps (steps_trans (steps_one hstep) hsteps'), hfits'⟩

/-- **A step that stays within the function.** -/
theorem Fits.next (hlow : Lowered fn m live code) (hfits : Fits fn m live code entry s t)
    (h : fn.exec I s = some (.next s')) :
    ∃ k t', 0 < k ∧ steps (Machine.next I code) k t = some t' ∧
      Fits fn m live code entry s' t' := by
  obtain ⟨i, hi, hexec⟩ := Option.bind_eq_some_iff.mp h
  have hgives := hlow.gives_instr hi
  have huses : ∀ x ∈ i.uses, m.InPlace s.vars t.store x := fun x hx => hfits.uses hlow hi hx
  have hready := Pool.ready_scratch
  cases i with
  | assign dest source note =>
    obtain ⟨v, hv, hexec⟩ := Option.bind_eq_some_iff.mp hexec
    obtain rfl := Source.Outcome.next.inj (Option.some.inj hexec)
    obtain ⟨-, hne, heffect⟩ := assign_spec hlow.places hready hgives
    obtain ⟨σ, heff, hadv⟩ := heffect I s t.store v hv
      (fun x hx => huses x (Names.mem_ofList.mpr hx)) hfits.outside
    exact hfits.straight hlow hi trivial hne heff hadv (fun x hx => if_neg hx) rfl
  | apply dest op args note =>
    obtain ⟨us, hus, hexec⟩ := Option.bind_eq_some_iff.mp hexec
    obtain rfl := Source.Outcome.next.inj (Option.some.inj hexec)
    obtain ⟨-, hne, heffect⟩ := apply_spec hlow.places hready hgives
    obtain ⟨σ, heff, hadv⟩ := heffect I s t.store us hus
      (fun x hx => huses x (Names.mem_ofList.mpr hx)) hfits.outside
    exact hfits.straight hlow hi trivial hne heff hadv (fun x hx => if_neg hx) rfl
  | store dest source note =>
    obtain ⟨base, hbase, hexec⟩ := Option.bind_eq_some_iff.mp hexec
    obtain ⟨v, hv, hexec⟩ := Option.bind_eq_some_iff.mp hexec
    obtain rfl := Source.Outcome.next.inj (Option.some.inj hexec)
    obtain ⟨-, hne, heffect⟩ := store_instr_spec hlow.places hready hgives
    obtain ⟨σ, heff, hadv⟩ := heffect I s t.store base v hbase hv
      (huses _ (Names.mem_ofList.mpr List.mem_cons_self))
      (fun x hx => huses x (Names.mem_ofList.mpr (List.mem_cons_of_mem _ hx))) hfits.outside
    exact hfits.straight hlow hi trivial hne heff hadv (fun _ _ => rfl) rfl
  | load dest source note =>
    obtain ⟨base, hbase, hexec⟩ := Option.bind_eq_some_iff.mp hexec
    obtain rfl := Source.Outcome.next.inj (Option.some.inj hexec)
    obtain ⟨-, hne, heffect⟩ := load_instr_spec hlow.places hready hgives
    obtain ⟨σ, heff, hadv⟩ := heffect I s t.store base hbase
      (huses _ List.mem_cons_self) hfits.outside
    exact hfits.straight hlow hi trivial hne heff hadv (fun x hx => if_neg hx) rfl
  | branch test positive target note => exact hfits.branch hlow hi hexec
  | goto target note => exact hfits.goto hlow hi hexec
  | call dest callee args note =>
    obtain ⟨_, -, hexec⟩ := Option.bind_eq_some_iff.mp hexec
    obtain ⟨_, -, hexec⟩ := Option.bind_eq_some_iff.mp hexec
    cases hexec
  | ret value note =>
    cases value with
    | none => cases hexec
    | some o =>
      obtain ⟨_, -, hexec⟩ := Option.bind_eq_some_iff.mp hexec
      cases hexec

/-- The destination of a call is not among the registers that are kept across it. -/
theorem Lowered.dest_not_kept (hlow : Lowered fn m live code) {index : Nat}
    (hi : fn.body[index]? = some i) {x : String} (hx : i.dest? = some x) {r : Register}
    (hr : m.location? x = some (.register r)) : r ∉ m.keptAcross live index := by
  intro hmem
  obtain ⟨-, y, hy, hyr⟩ := mem_keptAcross.mp hmem
  obtain ⟨hout, hne⟩ := (Function.mem_across hlow.wellFormed hlow.liveness hi).mp hy
  refine hlow.separate index x y ?_ hout ?_ (hr.trans hyr.symm)
  · rw [Function.defsAt_eq hi]
    exact Instr.mem_defs.mpr hx
  · rintro rfl
    exact hne hx

/-- **A call.**  The code comes to a line that calls the same function, with the
arguments where the convention wants them; and once the call has returned, it goes
on to a match. -/
theorem Fits.call (hlow : Lowered fn m live code) (hfits : Fits fn m live code entry s t)
    {dest : Option String} {callee : Entry V} {args : List V}
    (h : fn.exec I s = some (.call dest callee args)) :
    ∃ k t', steps (Machine.next I code) k t = some t' ∧ exec I code t' = some (.call callee) ∧
      (∀ j v, args[j]? = some v → t'.store.passed j = v) ∧ t'.store.outside = s.outside ∧
      ∀ σ v o, Returns t'.store σ v o →
        ∃ k t'', steps (Machine.next I code) k ⟨t'.line + 1, σ⟩ = some t'' ∧
          Fits fn m live code entry (s.complete dest v o) t'' := by
  obtain ⟨i, hi, hexec⟩ := Option.bind_eq_some_iff.mp h
  obtain ⟨x, callee', args', note, rfl, rfl, hentry, hus⟩ := Function.execInstr_eq_call hexec
  obtain ⟨before, target, after, hgroup, hbefore, hafter⟩ :=
    call_spec hlow.places Pool.ready_scratch (nodup_keptAcross m live s.index)
      (fun x r hx hr => hlow.dest_not_kept hi hx hr) (hlow.gives_instr hi)
  obtain ⟨σ', heff, hprep, htarget, hpassed⟩ := hbefore I s.vars t.store callee args hentry hus
    fun x hx => hfits.uses hlow hi (Names.mem_ofList.mpr hx)
  have hline := hfits.line
  rw [remaining_eq hi, hgroup, List.append_assoc] at hline
  obtain ⟨hsteps, hdrop⟩ := steps_effects hline heff
  refine ⟨_, _, hsteps, ?_, hpassed, hprep.outside.trans hfits.outside, fun σ v o hret => ?_⟩
  · rw [exec_of_drop hdrop, execLine, htarget]
  · obtain ⟨σ₂, heff₂, hadv⟩ := hafter I s t.store σ' σ v o hprep hret
    have hdrop' : code.drop (t.line + before.length + 1)
        = after ++ (labelLines fn (s.index + 1) ++ remaining fn m live (s.index + 1)) := by
      rw [← List.drop_drop, hdrop]
      rfl
    obtain ⟨hsteps₂, hdrop₂⟩ := steps_effects hdrop' heff₂
    obtain ⟨k, t'', hsteps₃, hfits'⟩ := hfits.advance (I := I) hlow hi hadv
      (fun x hx l hl => survives_of_across hlow.places hx hl) (fun r hr => .inr hr)
      (fun k hk => hk) (fun x hx => if_neg hx)
      (fun x hx => Function.mem_liveOut_of_fallsThrough hlow.wellFormed hlow.liveness hi
        trivial hx) hdrop₂
    exact ⟨_, t'', steps_trans hsteps₂ hsteps₃, hfits'⟩

/-- **A return.**  The code comes to a line that returns, with the value in the
result register and the callee-saved registers as they were on entry. -/
theorem Fits.ret (hlow : Lowered fn m live code) (hfits : Fits fn m live code entry s t)
    {value : Option V} (h : fn.exec I s = some (.ret value)) :
    ∃ k t', steps (Machine.next I code) k t = some t' ∧ exec I code t' = some .ret ∧
      t'.store.outside = s.outside ∧ (∀ v, value = some v → t'.store.regs .result = v) ∧
      ∀ r, r.isCalleeSaved = true → t'.store.regs r = entry r := by
  obtain ⟨i, hi, hexec⟩ := Option.bind_eq_some_iff.mp h
  obtain ⟨result, note, rfl, hvalue⟩ := Function.execInstr_eq_ret hexec
  obtain ⟨-, ls₀, hgroup, heffect⟩ :=
    ret_spec hlow.places Pool.ready_scratch (hlow.gives_instr hi)
  obtain ⟨σ, heff, hout, hresult, hsaved⟩ := heffect I s.vars t.store value hvalue
    fun x hx => hfits.uses hlow hi (Names.mem_ofList.mpr hx)
  have hline := hfits.line
  rw [remaining_eq hi, hgroup, List.append_assoc] at hline
  obtain ⟨hsteps, hdrop⟩ := steps_effects hline heff
  refine ⟨_, _, hsteps, ?_, hout.trans hfits.outside, hresult, fun r hr => ?_⟩
  · rw [exec_of_drop hdrop, execLine]
  · exact (hsaved r hr).trans (hfits.saved r hr)

/-- **Entering the function.**  After the prologue the code matches the function. -/
theorem Lowered.enter (hlow : Lowered fn m live code) (I : Interp V W) {args : List V}
    {σ : Store V W} (hargs : ∀ k v, args[k]? = some v → σ.received k = v) :
    ∃ k t, steps (Machine.next I code) k ⟨0, σ⟩ = some t ∧
      Fits fn m live code σ.regs (fn.enter args σ.outside) t := by
  obtain ⟨frame, hgives⟩ := hlow.gives
  obtain ⟨hcode, -, hprologue, -⟩ := function_spec hlow.places hgives
  obtain ⟨-, heffect⟩ := prologue_spec hlow.places Pool.ready_scratch
    hlow.wellFormed.params_nodup hlow.params hprologue
  obtain ⟨σ', heff, hout, hparams, hsaved⟩ := heffect I σ
  have hhead : effects? I (head fn m live) σ = some σ' := heff
  obtain ⟨hsteps, hdrop⟩ := steps_effects (show code.drop 0 = _ from hcode) hhead
  obtain ⟨hsteps', hdrop'⟩ := steps_effects hdrop (effects?_labels (I := I) _ σ')
  refine ⟨_, _, steps_trans hsteps hsteps', hdrop', hout, fun x hx v l hv hl => ?_,
    hsaved⟩
  have hentry : x ∈ live.entry := by
    rw [Liveness.entry, List.head?_eq_getElem?]
    exact hx
  -- a variable that is written on entry is a parameter
  obtain ⟨k, hk⟩ := List.mem_iff_getElem?.mp (Allocation.mem_of_lookup hv)
  obtain ⟨hname, harg⟩ := List.getElem?_zip_eq_some.mp hk
  rw [List.getElem?_map] at hname
  obtain ⟨y, hy, rfl⟩ := Option.map_eq_some_iff.mp hname
  rw [hparams k y l hy hentry hl, hargs k v harg]

end Emit

end Vapor
