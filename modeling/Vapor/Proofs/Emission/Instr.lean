/-
Vapor/Proofs/Emission/Instr.lean

What the lines for a single instruction do, for each kind of instruction.  If the
variables that the instruction reads are in their places, then the lines do what the
instruction does: they set the place of its destination and no other (`Advances`),
or come to a line that jumps, calls or returns with the right values in the right
registers.
-/
import Vapor.Proofs.Emission.Calls

namespace Vapor

variable {V W : Type}

open Machine

namespace Emit

variable {α : Type} {m : Allocation} {pool pool' : Pool} {ls : List Line}
  {kept : List Register} {b : Unit}

/-! ### Instructions that go on -/

/-- A location that is more than a help within an instruction. -/
def Lasting (l : Location) : Prop :=
  ∀ r, l = .register r → r ∉ Register.scratches

theorem lasting_of_location? (hm : m.WellFormed) {x : String} {l : Location}
    (hl : m.location? x = some l) : Lasting l := by
  rintro r rfl
  exact Register.not_mem_scratches (hm.isAllocatable hl)

/-- The destination, if there is one, has its value, and of the locations in `P` no
other has changed. -/
structure Advances (m : Allocation) (P : Location → Prop) (dest : Option String)
    (vars : String → Option V) (o : Outside V W) (σ σ' : Store V W) : Prop where
  outside : σ'.outside = o
  written : ∀ x, dest = some x → m.InPlace vars σ' x
  rest : ∀ l, P l → (∀ x, dest = some x → m.location? x ≠ some l) → l.read σ' = l.read σ

theorem Puts.advances {x : String} {l : Location} (hl : m.location? x = some l)
    {σ σ' : Store V W} {v : V} {o : Outside V W} (h : Puts σ l v o σ')
    (s : Source.State V W) :
    Advances m Lasting (some x) (s.complete (some x) v o).vars o σ σ' where
  outside := h.outside
  written y hy u l' hu hl' := by
    obtain rfl : x = y := Option.some.inj hy
    obtain rfl : l = l' := Option.some.inj (hl.symm.trans hl')
    obtain rfl : v = u := Option.some.inj ((if_pos rfl).symm.trans hu)
    exact h.read
  rest l' hlast hother := by
    refine h.read_eq ?_ hlast
    rintro rfl
    exact hother x rfl hl

theorem advances_of_sameBut {rs : List Register} (hrs : rs ⊆ Register.scratches)
    {σ σ₁ : Store V W} (h : σ.SameBut rs σ₁) (vars : String → Option V) (o : Outside V W) :
    Advances m Lasting none vars o σ (σ₁.setOutside o) where
  outside := rfl
  written x hx := by cases hx
  rest l hlast _ := by
    cases l with
    | register r => exact h.regs r fun hr => hlast r rfl (hrs hr)
    | slot k => exact congrFun h.locals k

theorem assign_spec (hm : m.WellFormed) (hpool : pool.Ready) {dest : Ref α} {source : Operand α}
    {note : α} (h : (instr m kept (.assign dest source note)).Gives pool ls pool' b) :
    pool'.Ready ∧ ls ≠ [] ∧
      ∀ {V W : Type} (I : Interp V W) (s : Source.State V W) (σ : Store V W) (v : V),
        source.eval I s.vars = some v → (∀ x ∈ source.vars, m.InPlace s.vars σ x) →
          σ.outside = s.outside → ∃ σ', effects? I ls σ = some σ' ∧
            Advances m Lasting (some dest.name) (s.complete (some dest.name) v s.outside).vars
              s.outside σ σ' := by
  obtain ⟨r, _, ls₁, _, h₁, h₂, rfl⟩ := gives_bind.mp h
  obtain ⟨u, _, ls₂, _, h₃, h₄, rfl⟩ := gives_bind.mp h₂
  obtain ⟨_, _, _, _, h₅, h₆, rfl⟩ := gives_bind.mp h₄
  obtain ⟨rfl, rfl⟩ := gives_assign.mp h₅
  obtain ⟨_, _, _, _, h₇, h₈, rfl⟩ := gives_bind.mp h₆
  obtain ⟨_, _, ls₃, _, h₉, h₁₀, rfl⟩ := gives_bind.mp h₈
  obtain ⟨l, hl, hload⟩ := load_spec hm hpool h₁
  have hvalue := value_spec hm hload.ready h₃
  obtain ⟨rfl, hready⟩ := drop_spec hvalue.ready h₇
  obtain ⟨-, rfl⟩ := gives_store.mp h₉
  obtain ⟨rfl, hready'⟩ := giveBack_spec hready h₁₀
  refine ⟨hready', by simp, fun I s σ v hv hx hout => ?_⟩
  obtain ⟨σ₁, heff₁, hsame₁, -⟩ := hload.effect I σ
  have hx₁ : ∀ x ∈ source.vars, m.InPlace s.vars σ₁ x := fun x h =>
    hm.inPlace (fun _ => hpool.mem_scratches) hsame₁ (hx x h)
  obtain ⟨σ₂, heff₂, hsame₂, hu⟩ := hvalue.effect I s.vars σ₁ v hv hx₁
  have hsame := hsame₁.trans hsame₂ hload.subset
  have heval : (Machine.Source.value u).eval I σ₂ = (v, s.outside) :=
    Prod.ext hu (hsame.outside.trans hout)
  obtain ⟨σ₃, heff₃, hputs⟩ := set_effect hm hl hload.carries h₉ heval
  refine ⟨σ₃, ?_, (hputs.of_sameBut (fun _ => hpool.mem_scratches) hsame).advances hl s⟩
  rw [List.nil_append, List.append_nil]
  exact effects?_trans heff₁ (effects?_trans heff₂ heff₃)

theorem load_instr_spec (hm : m.WellFormed) (hpool : pool.Ready) {dest : Ref α}
    {source : Address α} {note : α}
    (h : (instr m kept (.load dest source note)).Gives pool ls pool' b) :
    pool'.Ready ∧ ls ≠ [] ∧
      ∀ {V W : Type} (I : Interp V W) (s : Source.State V W) (σ : Store V W) (base : V),
        s.vars source.base.name = some base → m.InPlace s.vars σ source.base.name →
          σ.outside = s.outside → ∃ σ', effects? I ls σ = some σ' ∧
            Advances m Lasting (some dest.name)
              (s.complete (some dest.name) (I.readFrom base source.offset s.outside).1
                (I.readFrom base source.offset s.outside).2).vars
              (I.readFrom base source.offset s.outside).2 σ σ' := by
  obtain ⟨r, _, ls₁, _, h₁, h₂, rfl⟩ := gives_bind.mp h
  obtain ⟨q, _, ls₂, _, h₃, h₄, rfl⟩ := gives_bind.mp h₂
  obtain ⟨_, _, _, _, h₅, h₆, rfl⟩ := gives_bind.mp h₄
  obtain ⟨rfl, rfl⟩ := gives_assign.mp h₅
  obtain ⟨_, _, _, _, h₇, h₈, rfl⟩ := gives_bind.mp h₆
  obtain ⟨_, _, ls₃, _, h₉, h₁₀, rfl⟩ := gives_bind.mp h₈
  obtain ⟨l, hl, hload⟩ := load_spec hm hpool h₁
  obtain ⟨l', hl', hload'⟩ := load_spec hm hload.ready h₃
  obtain ⟨rfl, hready⟩ := giveBack_spec hload'.ready h₇
  obtain ⟨-, rfl⟩ := gives_store.mp h₉
  obtain ⟨rfl, hready'⟩ := giveBack_spec hready h₁₀
  refine ⟨hready', by simp, fun I s σ base hbase hx hout => ?_⟩
  obtain ⟨σ₁, heff₁, hsame₁, -⟩ := hload.effect I σ
  have hx₁ := hm.inPlace (fun _ => hpool.mem_scratches) hsame₁ hx
  obtain ⟨σ₂, heff₂, hsame₂, hq⟩ := hload'.effect I σ₁
  have hsame := hsame₁.trans hsame₂ hload.subset
  have heval : (Machine.Source.memory q source.offset).eval I σ₂
      = I.readFrom base source.offset s.outside := by
    show I.readFrom (σ₂.regs q) source.offset σ₂.outside = _
    rw [hq, hx₁ base l' hbase hl', hsame.outside, hout]
  obtain ⟨σ₃, heff₃, hputs⟩ := set_effect hm hl hload.carries h₉ heval
  refine ⟨σ₃, ?_, (hputs.of_sameBut (fun _ => hpool.mem_scratches) hsame).advances hl s⟩
  rw [List.nil_append, List.append_nil]
  exact effects?_trans heff₁ (effects?_trans heff₂ heff₃)

theorem store_instr_spec (hm : m.WellFormed) (hpool : pool.Ready) {dest : Address α}
    {source : Operand α} {note : α}
    (h : (instr m kept (.store dest source note)).Gives pool ls pool' b) :
    pool'.Ready ∧ ls ≠ [] ∧
      ∀ {V W : Type} (I : Interp V W) (s : Source.State V W) (σ : Store V W) (base v : V),
        s.vars dest.base.name = some base → source.eval I s.vars = some v →
          m.InPlace s.vars σ dest.base.name → (∀ x ∈ source.vars, m.InPlace s.vars σ x) →
            σ.outside = s.outside → ∃ σ', effects? I ls σ = some σ' ∧
              Advances m Lasting none s.vars (I.writeTo base dest.offset v s.outside) σ σ' := by
  obtain ⟨q, _, ls₁, _, h₁, h₂, rfl⟩ := gives_bind.mp h
  obtain ⟨u, _, ls₂, _, h₃, h₄, rfl⟩ := gives_bind.mp h₂
  obtain ⟨_, _, _, _, h₅, h₆, rfl⟩ := gives_bind.mp h₄
  obtain ⟨rfl, rfl⟩ := gives_assign.mp h₅
  obtain ⟨_, _, _, _, h₇, h₈, rfl⟩ := gives_bind.mp h₆
  obtain ⟨l, hl, hload⟩ := load_spec hm hpool h₁
  have hvalue := value_spec hm hload.ready h₃
  obtain ⟨rfl, hready⟩ := drop_spec hvalue.ready h₇
  obtain ⟨rfl, hready'⟩ := giveBack_spec hready h₈
  refine ⟨hready', by simp, fun I s σ base v hbase hv hxb hx hout => ?_⟩
  obtain ⟨σ₁, heff₁, hsame₁, hq⟩ := hload.effect I σ
  have hx₁ : ∀ x ∈ source.vars, m.InPlace s.vars σ₁ x := fun x h =>
    hm.inPlace (fun _ => hpool.mem_scratches) hsame₁ (hx x h)
  obtain ⟨σ₂, heff₂, hsame₂, hu⟩ := hvalue.effect I s.vars σ₁ v hv hx₁
  have hsame := hsame₁.trans hsame₂ hload.subset
  have hq₂ : σ₂.regs q = base := by
    rw [hsame₂.regs q hload.unfree, hq, hxb base l hbase hl]
  have heval : (Machine.Source.value u).eval I σ₂ = (v, s.outside) :=
    Prod.ext hu (hsame.outside.trans hout)
  refine ⟨σ₂.setOutside (I.writeTo base dest.offset v s.outside), ?_,
    advances_of_sameBut (fun _ => hpool.mem_scratches) hsame _ _⟩
  rw [List.append_nil, List.append_nil]
  refine effects?_trans heff₁ (effects?_trans heff₂ ((effects?_assign _ heval).trans ?_))
  show some ((σ₂.setOutside s.outside).setOutside
    (I.writeTo (σ₂.regs q) dest.offset v s.outside)) = _
  rw [hq₂]
  rfl

theorem apply_spec (hm : m.WellFormed) (hpool : pool.Ready) {dest : Option (Ref α)} {op : String}
    {args : List (Operand α)} {note : α}
    (h : (instr m kept (.apply dest op args note)).Gives pool ls pool' b) :
    pool'.Ready ∧ ls ≠ [] ∧
      ∀ {V W : Type} (I : Interp V W) (s : Source.State V W) (σ : Store V W) (us : List V),
        args.mapM (Operand.eval I s.vars) = some us →
          (∀ x ∈ args.flatMap Operand.vars, m.InPlace s.vars σ x) → σ.outside = s.outside →
            ∃ σ', effects? I ls σ = some σ' ∧
              Advances m Lasting (dest.map Ref.name)
                (s.complete (dest.map Ref.name) (I.applyTo op us s.outside).1
                  (I.applyTo op us s.outside).2).vars
                (I.applyTo op us s.outside).2 σ σ' := by
  obtain ⟨vs, _, ls₁, _, h₁, h₂, rfl⟩ := gives_bind.mp h
  have hvalues := values_spec hm hpool h₁
  have hscratch : pool.free ⊆ Register.scratches := fun _ => hpool.mem_scratches
  cases dest with
  | some x =>
    obtain ⟨_, _, ls₂, _, h₃, h₄, rfl⟩ := gives_bind.mp h₂
    obtain ⟨hready, hne, l, hl, hdefine⟩ := define_spec hm hvalues.ready h₃
    obtain ⟨rfl, hready'⟩ := dropAll_spec hready h₄
    refine ⟨hready', by simp [hne], fun I s σ us hus hx hout => ?_⟩
    obtain ⟨σ₁, heff₁, hsame₁, hvs⟩ := hvalues.effect I s.vars σ us hus hx
    obtain ⟨σ₂, heff₂, hputs⟩ := hdefine I σ₁ (I.applyTo op us s.outside).1
      (I.applyTo op us s.outside).2 fun τ hτ => by
        show I.applyTo op (vs.map (Value.eval I τ)) τ.outside = _
        rw [hτ.map_eval hvalues.unfree, hvs, hτ.outside, hsame₁.outside, hout]
    refine ⟨σ₂, ?_, (hputs.of_sameBut hscratch hsame₁).advances hl s⟩
    rw [List.append_nil]
    exact effects?_trans heff₁ heff₂
  | none =>
    obtain ⟨_, _, ls₂, _, h₃, h₄, rfl⟩ := gives_bind.mp h₂
    obtain ⟨rfl, rfl⟩ := gives_line.mp h₃
    obtain ⟨rfl, hready'⟩ := dropAll_spec hvalues.ready h₄
    refine ⟨hready', by simp, fun I s σ us hus hx hout => ?_⟩
    obtain ⟨σ₁, heff₁, hsame₁, hvs⟩ := hvalues.effect I s.vars σ us hus hx
    refine ⟨_, ?_, advances_of_sameBut hscratch hsame₁ _ _⟩
    rw [List.append_nil]
    refine effects?_trans heff₁ ?_
    show some (σ₁.setOutside (I.applyTo op (vs.map (Value.eval I σ₁)) σ₁.outside).2) = _
    rw [hvs, hsame₁.outside, hout]

/-! ### Instructions that jump or return -/

/-- The last line jumps depending on the value of the operand. -/
theorem branch_spec (hm : m.WellFormed) (hpool : pool.Ready) {test : Operand α} {positive : Bool}
    {target : Ref α} {note : α}
    (h : (instr m kept (.branch test positive target note)).Gives pool ls pool' b) :
    pool'.Ready ∧ ∃ ls₀ u, ls = ls₀ ++ [.branch positive u target.name] ∧
      ∀ {V W : Type} (I : Interp V W) (vars : String → Option V) (σ : Store V W) (v : V),
        test.eval I vars = some v → (∀ x ∈ test.vars, m.InPlace vars σ x) →
          ∃ σ', effects? I ls₀ σ = some σ' ∧ σ.SameBut Register.scratches σ' ∧
            u.eval I σ' = v := by
  obtain ⟨u, _, ls₁, _, h₁, h₂, rfl⟩ := gives_bind.mp h
  obtain ⟨_, _, _, _, h₃, h₄, rfl⟩ := gives_bind.mp h₂
  obtain ⟨rfl, rfl⟩ := gives_line.mp h₃
  have hvalue := value_spec hm hpool h₁
  obtain ⟨rfl, hready⟩ := drop_spec hvalue.ready h₄
  refine ⟨hready, ls₁, u, rfl, fun I vars σ v hv hx => ?_⟩
  obtain ⟨σ₁, heff, hsame, hu⟩ := hvalue.effect I vars σ v hv hx
  exact ⟨σ₁, heff, (Store.SameBut.refl _ σ).trans hsame fun _ => hpool.mem_scratches, hu⟩

theorem not_mem_calleeSaved {r : Register} (h : r.isCalleeSaved = false) : r ∉ m.calleeSaved := by
  intro hr
  rw [(Allocation.mem_calleeSavedIn.mp hr).1] at h
  cases h

/-- The callee-saved registers in use are brought back from their slots. -/
theorem restore_onEntry (I : Interp V W) (m : Allocation) (σ : Store V W) :
    ∃ regs, effects? I (restoreLines 0 m.calleeSaved) σ = some { σ with regs := regs } ∧
      (∀ r, r.isCalleeSaved = true → regs r = m.onEntry σ r) ∧
      ∀ r, r.isCalleeSaved = false → regs r = σ.regs r := by
  obtain ⟨regs, heff, hback, hrest⟩ :=
    restoreLines_effect I 0 (Allocation.nodup_calleeSavedIn m.registers) σ
  refine ⟨regs, heff, fun r _ => ?_, fun r hr => hrest r (not_mem_calleeSaved hr)⟩
  unfold Allocation.onEntry
  split
  · rename_i hmem
    have hidx := List.idxOf_lt_length_of_mem hmem
    have hget : m.calleeSaved[m.calleeSaved.idxOf r]? = some r := by
      rw [List.getElem?_eq_getElem hidx, List.getElem_idxOf hidx]
    rw [hback _ r hget, Nat.zero_add]
  · rename_i hmem
    exact hrest r hmem

/-- Lines that leave callee-saved registers and slots alone leave alone what was
there on entry. -/
theorem onEntry_congr {σ σ' : Store V W}
    (hregs : ∀ r, r.isCalleeSaved = true → r ∉ m.calleeSaved → σ'.regs r = σ.regs r)
    (hlocals : ∀ k, k < m.calleeSaved.length → σ'.locals k = σ.locals k) {r : Register}
    (hr : r.isCalleeSaved = true) : m.onEntry σ' r = m.onEntry σ r := by
  unfold Allocation.onEntry
  split
  · exact hlocals _ (List.idxOf_lt_length_of_mem ‹_›)
  · exact hregs r hr ‹_›

/-- The last line returns; the value is in the result register, and the
callee-saved registers are as they were on entry. -/
theorem ret_spec (hm : m.WellFormed) (hpool : pool.Ready) {result : Option (Operand α)} {note : α}
    (h : (instr m kept (.ret result note)).Gives pool ls pool' b) :
    pool'.Ready ∧ ∃ ls₀, ls = ls₀ ++ [.ret] ∧
      ∀ {V W : Type} (I : Interp V W) (vars : String → Option V) (σ : Store V W)
        (value : Option V), result.map (Operand.eval I vars) = value.map some →
          (∀ x ∈ result.toList.flatMap Operand.vars, m.InPlace vars σ x) →
            ∃ σ', effects? I ls₀ σ = some σ' ∧ σ'.outside = σ.outside ∧
              (∀ v, value = some v → σ'.regs .result = v) ∧
              ∀ r, r.isCalleeSaved = true → σ'.regs r = m.onEntry σ r := by
  cases result with
  | none =>
    obtain ⟨_, _, _, _, h₁, h₂, rfl⟩ := gives_bind.mp h
    obtain ⟨rfl, rfl⟩ := gives_lines.mp h₁
    obtain ⟨rfl, rfl⟩ := gives_line.mp h₂
    refine ⟨hpool, restoreLines 0 m.calleeSaved, rfl, fun I vars σ value hvalue _ => ?_⟩
    obtain ⟨regs, heff, hback, -⟩ := restore_onEntry I m σ
    refine ⟨_, heff, rfl, fun v hv => ?_, hback⟩
    rw [hv] at hvalue
    cases hvalue
  | some o =>
    obtain ⟨u, _, ls₁, _, h₁, h₂, rfl⟩ := gives_bind.mp h
    obtain ⟨_, _, _, _, h₃, h₄, rfl⟩ := gives_bind.mp h₂
    obtain ⟨rfl, rfl⟩ := gives_assign.mp h₃
    obtain ⟨_, _, _, _, h₅, h₆, rfl⟩ := gives_bind.mp h₄
    obtain ⟨_, _, _, _, h₇, h₈, rfl⟩ := gives_bind.mp h₆
    obtain ⟨rfl, rfl⟩ := gives_lines.mp h₇
    obtain ⟨rfl, rfl⟩ := gives_line.mp h₈
    have hvalue := value_spec hm hpool h₁
    obtain ⟨rfl, hready⟩ := drop_spec hvalue.ready h₅
    refine ⟨hready, ls₁ ++ ([.assign (.register .result) (.value u)] ++
      restoreLines 0 m.calleeSaved), by simp, fun I vars σ value heval hx => ?_⟩
    obtain ⟨v, rfl⟩ : ∃ v, value = some v := by
      cases value with
      | none => cases heval
      | some v => exact ⟨v, rfl⟩
    have hv : o.eval I vars = some v := Option.some.inj heval
    have hvars : ∀ x ∈ o.vars, m.InPlace vars σ x := fun x h => hx x (by simpa using h)
    obtain ⟨σ₁, heff₁, hsame, hu⟩ := hvalue.effect I vars σ v hv hvars
    obtain ⟨regs, heff₂, hback, hrest⟩ := restore_onEntry I m (σ₁.setReg .result v)
    have heval : (Machine.Source.value u).eval I σ₁ = (v, σ₁.outside) := Prod.ext hu rfl
    have hassign : effects? I [.assign (.register .result) (.value u)] σ₁
        = some (σ₁.setReg .result v) := effects?_assign _ heval
    refine ⟨_, effects?_trans heff₁ (effects?_trans hassign heff₂), hsame.outside,
      fun w hw => ?_, fun r hr => ?_⟩
    · obtain rfl : v = w := Option.some.inj hw
      exact (hrest .result rfl).trans (Store.regs_setReg_self σ₁ .result v)
    · refine (hback r hr).trans (onEntry_congr (fun q hq _ => ?_) (fun k _ => ?_) hr)
      · have hres : q ≠ .result := by
          rintro rfl
          cases hq
        refine (Store.regs_setReg_of_ne σ₁ v hres).trans (hsame.regs q fun hfree => ?_)
        exact Register.not_mem_scratches (by simp [Register.isAllocatable, hq])
          (hpool.mem_scratches hfree)
      · exact congrFun hsame.locals k

/-! ### Calls -/

/-- What is ready before a call: registers are kept above all other slots, and
nothing else that a call preserves has changed. -/
structure Prepared (m : Allocation) (kept : List Register) (σ σ' : Store V W) : Prop where
  low : ∀ k, k < m.slotCount → σ'.locals k = σ.locals k
  kept : ∀ j r, kept[j]? = some r → σ'.locals (m.slotCount + j) = σ.regs r
  saved : ∀ r, r.isCalleeSaved = true → σ'.regs r = σ.regs r
  outside : σ'.outside = σ.outside

/-- What a call guarantees: the local slots and the callee-saved registers are as
before, and the result is in its register. -/
structure Returns (σ σ' : Store V W) (v : V) (o : Outside V W) : Prop where
  locals : σ'.locals = σ.locals
  saved : ∀ r, r.isCalleeSaved = true → σ'.regs r = σ.regs r
  result : σ'.regs .result = v
  outside : σ'.outside = o

theorem returns_afterCall (σ : Store V W) (reply : Reply V W) (debris : Debris V) :
    Returns σ (σ.afterCall reply debris) reply.result reply.outside where
  locals := rfl
  saved _ hr := if_pos hr
  result := rfl
  outside := rfl

/-- The locations that are the same after a call as before: those that are kept and
those that the convention preserves. -/
def Survives (m : Allocation) (kept : List Register) : Location → Prop
  | .register r => r ∈ kept ∨ r.isCalleeSaved = true
  | .slot k => k < m.slotCount

theorem lasting_slot (k : Nat) : Lasting (.slot k) :=
  fun r h => by cases h

theorem lasting_calleeSaved {r : Register} (hr : r.isCalleeSaved = true) :
    Lasting (.register r) := by
  intro q hq
  rw [← Location.register.inj hq]
  exact Register.not_mem_scratches (by simp [Register.isAllocatable, hr])

/-- Bringing back what was kept completes a call, if the destination is not among
the registers that are brought back. -/
theorem restore_advances (hnodup : kept.Nodup) {dest : Option String}
    (hdest : ∀ x r, dest = some x → m.location? x = some (.register r) → r ∉ kept)
    {vars : String → Option V} {v : V} {o : Outside V W} {σ σ' σ₁ σ₂ : Store V W}
    (hprep : Prepared m kept σ σ') (hret : Returns σ' σ₁ v o)
    (hadv : Advances m Lasting dest vars o σ₁ σ₂) (I : Interp V W) :
    ∃ σ₃, effects? I (restoreLines m.slotCount kept) σ₂ = some σ₃ ∧
      Advances m (Survives m kept) dest vars o σ σ₃ := by
  obtain ⟨regs, heff, hback, hrest⟩ := restoreLines_effect I m.slotCount hnodup σ₂
  refine ⟨_, heff, hadv.outside, fun x hx => (hadv.written x hx).congr fun l hl => ?_,
    fun l hl hother => ?_⟩
  · cases l with
    | register r => exact hrest r (hdest x r hx hl)
    | slot k => rfl
  · cases l with
    | register r =>
      by_cases hr : r ∈ kept
      · obtain ⟨j, hj⟩ := List.mem_iff_getElem?.mp hr
        have hslot : σ₂.locals (m.slotCount + j) = σ₁.locals (m.slotCount + j) := by
          refine hadv.rest (.slot _) (lasting_slot _) fun x _ hxl => ?_
          exact absurd (Allocation.slot_lt_slotCount hxl) (by omega)
        show regs r = σ.regs r
        rw [hback j r hj, hslot, hret.locals, hprep.kept j r hj]
      · have hsaved := hl.resolve_left hr
        show regs r = σ.regs r
        have hreg : σ₂.regs r = σ₁.regs r :=
          hadv.rest (.register r) (lasting_calleeSaved hsaved) hother
        rw [hrest r hr, hreg, hret.saved r hsaved, hprep.saved r hsaved]
    | slot k =>
      have hslot : σ₂.locals k = σ₁.locals k := hadv.rest (.slot k) (lasting_slot k) hother
      show σ₂.locals k = σ.locals k
      rw [hslot, hret.locals, hprep.low k hl]

/-- Up to the call, registers are kept and arguments passed. -/
theorem prepare_spec (hm : m.WellFormed) (hpool : pool.Ready) (kept : List Register)
    {args : List (Operand α)} {callee : Callee α} {pool₁ : Pool} {ls₁ ls₂ : List Line}
    {b₁ b₂ : Unit} (hargs : (passArgs m 0 args).Gives pool ls₁ pool₁ b₁)
    (hcallee : (transfer m callee).Gives pool₁ ls₂ pool' b₂) :
    pool'.Ready ∧ ∃ ls₀ target, ls₂ = ls₀ ++ [.call target] ∧
      ∀ {V W : Type} (I : Interp V W) (vars : String → Option V) (σ : Store V W)
        (entry : Entry V) (us : List V), callee.eval vars = some entry →
          args.mapM (Operand.eval I vars) = some us →
            (∀ x ∈ callee.vars ++ args.flatMap Operand.vars, m.InPlace vars σ x) →
              ∃ σ', effects? I (saveLines m.slotCount kept ++ (ls₁ ++ ls₀)) σ = some σ' ∧
                Prepared m kept σ σ' ∧ target.eval σ' = entry ∧
                ∀ k u, us[k]? = some u → σ'.passed k = u := by
  obtain ⟨hready₁, hpass⟩ := passArgs_spec hm hpool hargs
  obtain ⟨hready₂, ls₀, target, hls, htransfer⟩ := transfer_spec hm hready₁ hcallee
  refine ⟨hready₂, ls₀, target, hls, fun I vars σ entry us hentry hus hx => ?_⟩
  obtain ⟨locals, heff₁, hkept, hlow⟩ := saveLines_effect I m.slotCount kept σ
  have hx₁ : ∀ x ∈ callee.vars ++ args.flatMap Operand.vars,
      m.InPlace vars { σ with locals := locals } x := by
    refine fun x h => (hx x h).congr fun l hl => ?_
    cases l with
    | register r => rfl
    | slot k => exact hlow k (Allocation.slot_lt_slotCount hl)
  obtain ⟨σ₂, heff₂, hpasses, hpassed⟩ := hpass I vars _ us hus fun x h =>
    hx₁ x (List.mem_append_right _ h)
  obtain ⟨σ₃, heff₃, hsame, htarget⟩ := htransfer I vars σ₂ entry hentry fun x h =>
    hpasses.inPlace hm (hx₁ x (List.mem_append_left _ h))
  refine ⟨σ₃, effects?_trans heff₁ (effects?_trans heff₂ heff₃), ⟨fun k hk => ?_,
    fun j r hj => ?_, fun r hr => ?_, ?_⟩, htarget, fun k u hk => ?_⟩
  · rw [hsame.locals, hpasses.locals]
    exact hlow k hk
  · rw [hsame.locals, hpasses.locals]
    exact hkept j r hj
  · have halloc : r.isAllocatable = true := by simp [Register.isAllocatable, hr]
    rw [hsame.regs r (Register.not_mem_scratches halloc), hpasses.regs r
      (Register.not_mem_arguments halloc) (Register.not_mem_scratches halloc)]
  · rw [hsame.outside, hpasses.outside]
  · -- looking up the callee does not touch what has been passed
    have hpass₃ := Passes.of_sameBut (fun _ h => h) (k + 1) hsame
    rw [hpass₃.before k (by omega), ← hpassed k u hk, Nat.zero_add]

/-- The lines before the call pass the arguments; those after it bring the result to
its place. -/
theorem call_spec (hm : m.WellFormed) (hpool : pool.Ready) (hnodup : kept.Nodup)
    {dest : Option (Ref α)} {callee : Callee α} {args : List (Operand α)} {note : α}
    (hdest : ∀ x r, dest.map Ref.name = some x → m.location? x = some (.register r) → r ∉ kept)
    (h : (instr m kept (.call dest callee args note)).Gives pool ls pool' b) :
    ∃ before target after, ls = before ++ .call target :: after ∧
      (∀ {V W : Type} (I : Interp V W) (vars : String → Option V) (σ : Store V W)
        (entry : Entry V) (us : List V), callee.eval vars = some entry →
          args.mapM (Operand.eval I vars) = some us →
            (∀ x ∈ callee.vars ++ args.flatMap Operand.vars, m.InPlace vars σ x) →
              ∃ σ', effects? I before σ = some σ' ∧ Prepared m kept σ σ' ∧
                target.eval σ' = entry ∧ ∀ k u, us[k]? = some u → σ'.passed k = u) ∧
      ∀ {V W : Type} (I : Interp V W) (s : Source.State V W) (σ σ' σ₁ : Store V W) (v : V)
        (o : Outside V W), Prepared m kept σ σ' → Returns σ' σ₁ v o →
          ∃ σ₂, effects? I after σ₁ = some σ₂ ∧
            Advances m (Survives m kept) (dest.map Ref.name)
              (s.complete (dest.map Ref.name) v o).vars o σ σ₂ := by
  obtain ⟨_, _, _, _, h₁, h₂, rfl⟩ := gives_bind.mp h
  obtain ⟨rfl, rfl⟩ := gives_lines.mp h₁
  obtain ⟨_, _, ls₁, _, h₃, h₄, rfl⟩ := gives_bind.mp h₂
  cases dest with
  | some x =>
    obtain ⟨_, _, _, _, h₅, h₆, rfl⟩ := gives_bind.mp h₄
    obtain ⟨_, _, ls₃, _, h₇, h₈, rfl⟩ := gives_bind.mp h₆
    obtain ⟨rfl, rfl⟩ := gives_lines.mp h₈
    obtain ⟨hready₂, ls₂, target, rfl, hbefore⟩ := prepare_spec hm hpool kept h₃ h₅
    obtain ⟨-, -, l, hl, hdefine⟩ := define_spec hm hready₂ h₇
    refine ⟨_, target, ls₃ ++ restoreLines m.slotCount kept, ?_, hbefore, ?_⟩
    · simp only [List.append_assoc, List.cons_append, List.nil_append]
    · intro V W I s σ σ' σ₁ v o hprep hret
      obtain ⟨σ₂, heff₁, hputs⟩ := hdefine I σ₁ v o fun τ hτ => by
        refine Prod.ext ((hτ.regs _ fun hfree => ?_).trans hret.result)
          (hτ.outside.trans hret.outside)
        have := hready₂.mem_scratches hfree
        revert this
        decide
      obtain ⟨σ₃, heff₂, hadv⟩ := restore_advances hnodup hdest hprep hret
        (hputs.advances hl s) I
      exact ⟨σ₃, effects?_trans heff₁ heff₂, hadv⟩
  | none =>
    obtain ⟨_, _, _, _, h₅, h₆, rfl⟩ := gives_bind.mp h₄
    obtain ⟨rfl, rfl⟩ := gives_lines.mp h₆
    obtain ⟨-, ls₂, target, rfl, hbefore⟩ := prepare_spec hm hpool kept h₃ h₅
    refine ⟨_, target, restoreLines m.slotCount kept, ?_, hbefore, ?_⟩
    · simp only [List.append_assoc, List.cons_append, List.nil_append]
    · intro V W I s σ σ' σ₁ v o hprep hret
      refine restore_advances hnodup hdest hprep hret ⟨hret.outside, ?_, ?_⟩ I
      · exact fun x hx => by cases hx
      · exact fun l _ _ => rfl

/-- After any instruction all registers that are in use are scratch registers. -/
theorem instr_ready (hm : m.WellFormed) (hpool : pool.Ready) {i : Instr α}
    (h : (instr m kept i).Gives pool ls pool' b) : pool'.Ready := by
  cases i with
  | assign => exact (assign_spec hm hpool h).1
  | apply => exact (apply_spec hm hpool h).1
  | store => exact (store_instr_spec hm hpool h).1
  | load => exact (load_instr_spec hm hpool h).1
  | branch => exact (branch_spec hm hpool h).1
  | ret => exact (ret_spec hm hpool h).1
  | goto =>
    obtain ⟨-, rfl⟩ := gives_line.mp h
    exact hpool
  | call dest callee args =>
    obtain ⟨_, _, _, _, h₁, h₂, -⟩ := gives_bind.mp h
    obtain ⟨-, rfl⟩ := gives_lines.mp h₁
    obtain ⟨_, _, _, _, h₃, h₄, -⟩ := gives_bind.mp h₂
    cases dest with
    | none =>
      obtain ⟨_, _, _, _, h₅, h₆, -⟩ := gives_bind.mp h₄
      obtain ⟨-, rfl⟩ := gives_lines.mp h₆
      exact (prepare_spec hm hpool kept h₃ h₅).1
    | some x =>
      obtain ⟨_, _, _, _, h₅, h₆, -⟩ := gives_bind.mp h₄
      obtain ⟨_, _, _, _, h₇, h₈, -⟩ := gives_bind.mp h₆
      obtain ⟨-, rfl⟩ := gives_lines.mp h₈
      exact (define_spec hm (prepare_spec hm hpool kept h₃ h₅).1 h₇).1

end Emit

end Vapor
