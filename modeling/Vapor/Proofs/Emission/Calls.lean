/-
Vapor/Proofs/Emission/Calls.lean

What the lines do that belong to the calling convention.  Registers are kept in
local slots and brought back.  Arguments are passed without touching any place of a
variable (`Passes`), and on entry the parameters that are live are brought to their
places (`prologue_spec`).
-/
import Vapor.Proofs.Emission.Effects

namespace Vapor

variable {V W : Type}

open Machine

theorem Register.arguments_inj {k p : Nat} {r : Register} (hk : Register.arguments[k]? = some r)
    (hp : Register.arguments[p]? = some r) : k = p := by
  have hnodup : Register.arguments.Nodup := by decide
  obtain ⟨hlt, heq⟩ := List.getElem?_eq_some_iff.mp hk
  obtain ⟨hlt', heq'⟩ := List.getElem?_eq_some_iff.mp hp
  exact (hnodup.getElem_inj_iff).mp (heq.trans heq'.symm)

theorem Register.not_mem_scratches_of_argument {r : Register} (h : r ∈ Register.arguments) :
    r ∉ Register.scratches := by
  revert r
  decide

theorem Register.not_mem_arguments {r : Register} (h : r.isAllocatable = true) :
    r ∉ Register.arguments := by
  intro hmem
  obtain ⟨i, -, rfl⟩ := List.mem_map.mp hmem
  cases h

namespace Emit

variable {α : Type} {m : Allocation} {pool pool' : Pool} {ls : List Line}

/-! ### Keeping registers in slots -/

theorem saveLines_cons (base : Nat) (r : Register) (rs : List Register) :
    saveLines base (r :: rs)
      = .assign (.localSlot base) (.value (.register r)) :: saveLines (base + 1) rs := rfl

theorem restoreLines_cons (base : Nat) (r : Register) (rs : List Register) :
    restoreLines base (r :: rs)
      = .assign (.register r) (.localSlot base) :: restoreLines (base + 1) rs := rfl

/-- Registers are kept one after the other from the base on. -/
theorem saveLines_effect (I : Interp V W) (base : Nat) (rs : List Register) (σ : Store V W) :
    ∃ locals, effects? I (saveLines base rs) σ = some { σ with locals := locals } ∧
      (∀ j r, rs[j]? = some r → locals (base + j) = σ.regs r) ∧
      ∀ k, k < base → locals k = σ.locals k := by
  induction rs generalizing base σ with
  | nil => exact ⟨σ.locals, rfl, fun j r h => by simp at h, fun _ _ => rfl⟩
  | cons r rs ih =>
    obtain ⟨locals, heff, hkept, hlow⟩ := ih (base + 1) (σ.setLocal base (σ.regs r))
    refine ⟨locals, ?_, fun j q hj => ?_, fun k hk => ?_⟩
    · rw [saveLines_cons, effects?, Line.effect?]
      exact heff
    · cases j with
      | zero =>
        obtain rfl : r = q := Option.some.inj hj
        rw [Nat.add_zero, hlow base (by omega)]
        exact if_pos rfl
      | succ j =>
        rw [show base + (j + 1) = base + 1 + j by omega]
        exact hkept j q hj
    · rw [hlow k (by omega)]
      exact if_neg (by omega)

/-- Registers are brought back from where they were kept, and nothing else changes. -/
theorem restoreLines_effect (I : Interp V W) (base : Nat) {rs : List Register} (hrs : rs.Nodup)
    (σ : Store V W) :
    ∃ regs, effects? I (restoreLines base rs) σ = some { σ with regs := regs } ∧
      (∀ j r, rs[j]? = some r → regs r = σ.locals (base + j)) ∧
      ∀ r, r ∉ rs → regs r = σ.regs r := by
  induction rs generalizing base σ with
  | nil => exact ⟨σ.regs, rfl, fun j r h => by simp at h, fun _ _ => rfl⟩
  | cons r rs ih =>
    obtain ⟨hr, hrs⟩ := List.nodup_cons.mp hrs
    obtain ⟨regs, heff, hback, hrest⟩ := ih (base + 1) hrs (σ.setReg r (σ.locals base))
    refine ⟨regs, ?_, fun j q hj => ?_, fun q hq => ?_⟩
    · rw [restoreLines_cons, effects?, Line.effect?]
      exact heff
    · cases j with
      | zero =>
        obtain rfl : r = q := Option.some.inj hj
        rw [hrest r hr]
        exact if_pos rfl
      | succ j =>
        rw [show base + (j + 1) = base + 1 + j by omega]
        exact hback j q hj
    · rw [hrest q fun h => hq (List.mem_cons_of_mem _ h)]
      refine if_neg ?_
      rintro rfl
      exact hq List.mem_cons_self

/-! ### Passing arguments -/

theorem passed_setReg {p : Nat} {r : Register} (hp : Register.arguments[p]? = some r)
    (σ : Store V W) (v : V) (k : Nat) :
    (σ.setReg r v).passed k = if k = p then v else σ.passed k := by
  unfold Store.passed
  split
  · rename_i q hk
    by_cases h : k = p
    · subst h
      obtain rfl : q = r := Option.some.inj (hk.symm.trans hp)
      rw [if_pos rfl]
      exact if_pos rfl
    · rw [if_neg h]
      refine if_neg ?_
      rintro rfl
      exact h (Register.arguments_inj hk hp)
  · rename_i hk
    rw [if_neg]
    · rfl
    · rintro rfl
      rw [hk] at hp
      cases hp

theorem passed_setOut {p : Nat} (hp : Register.arguments[p]? = none) (σ : Store V W) (v : V)
    (k : Nat) :
    (σ.setOut (p - argumentCount) v).passed k = if k = p then v else σ.passed k := by
  have hlen : argumentCount ≤ p := List.getElem?_eq_none_iff.mp hp
  unfold Store.passed
  split
  · rename_i q hk
    rw [if_neg]
    · rfl
    · rintro rfl
      rw [hk] at hp
      cases hp
  · rename_i hk
    have hlen' : argumentCount ≤ k := List.getElem?_eq_none_iff.mp hk
    by_cases h : k = p
    · rw [if_pos h, h]
      exact if_pos rfl
    · rw [if_neg h]
      exact if_neg (by omega)

/-- What passing arguments from a position on leaves alone. -/
structure Passes (position : Nat) (σ σ' : Store V W) : Prop where
  regs : ∀ r, r ∉ Register.arguments → r ∉ Register.scratches → σ'.regs r = σ.regs r
  before : ∀ k, k < position → σ'.passed k = σ.passed k
  locals : σ'.locals = σ.locals
  outside : σ'.outside = σ.outside

theorem Passes.trans {p q : Nat} {σ σ₁ σ₂ : Store V W} (h₁ : Passes p σ σ₁) (h₂ : Passes q σ₁ σ₂)
    (hle : p ≤ q) : Passes p σ σ₂ where
  regs r ha hs := (h₂.regs r ha hs).trans (h₁.regs r ha hs)
  before k hk := (h₂.before k (by omega)).trans (h₁.before k hk)
  locals := h₂.locals.trans h₁.locals
  outside := h₂.outside.trans h₁.outside

theorem Passes.of_sameBut {rs : List Register} (hrs : rs ⊆ Register.scratches) (p : Nat)
    {σ σ' : Store V W} (h : σ.SameBut rs σ') : Passes p σ σ' where
  regs r _ hs := h.regs r fun h' => hs (hrs h')
  before k _ := by
    unfold Store.passed
    split
    · rename_i r hr
      refine h.regs r fun hmem => ?_
      exact Register.not_mem_scratches_of_argument (List.mem_of_getElem? hr) (hrs hmem)
    · rw [h.outs]
  locals := h.locals
  outside := h.outside

theorem passes_setReg {p : Nat} {r : Register} (hp : Register.arguments[p]? = some r)
    (σ : Store V W) (v : V) : Passes p σ (σ.setReg r v) where
  regs q ha _ := by
    refine if_neg ?_
    rintro rfl
    exact ha (List.mem_of_getElem? hp)
  before k hk := by rw [passed_setReg hp, if_neg (by omega)]
  locals := rfl
  outside := rfl

theorem passes_setOut {p : Nat} (hp : Register.arguments[p]? = none) (σ : Store V W) (v : V) :
    Passes p σ (σ.setOut (p - argumentCount) v) where
  regs _ _ _ := rfl
  before k hk := by rw [passed_setOut hp, if_neg (by omega)]
  locals := rfl
  outside := rfl

/-- No variable lives where arguments are passed. -/
theorem Passes.inPlace (hm : m.WellFormed) {p : Nat} {σ σ' : Store V W} (h : Passes p σ σ')
    {vars : String → Option V} {x : String} (hx : m.InPlace vars σ x) : m.InPlace vars σ' x := by
  refine hx.congr fun l hl => ?_
  cases l with
  | register r =>
    have hr := hm.isAllocatable hl
    exact h.regs r (Register.not_mem_arguments hr) (Register.not_mem_scratches hr)
  | slot k => exact congrFun h.locals k

theorem literal_eq_inl {o : Operand α} {x : Ref α} (h : literal o = .inl x) : o = .var x := by
  cases o <;> cases h
  rfl

theorem literal_eq_inr {o : Operand α} {v : Value} (h : literal o = .inr v) (I : Interp V W)
    (vars : String → Option V) (σ : Store V W) : o.eval I vars = some (v.eval I σ) := by
  cases o <;> cases h <;> rfl

theorem eval_fromLocation (I : Interp V W) (σ : Store V W) (l : Location) :
    (fromLocation l).eval I σ = (l.read σ, σ.outside) := by
  cases l <;> rfl

theorem passArg_spec (hm : m.WellFormed) (hpool : pool.Ready) {position : Nat} {arg : Operand α}
    {b : Unit} (h : (passArg m position arg).Gives pool ls pool' b) :
    pool'.Ready ∧
      ∀ {V W : Type} (I : Interp V W) (vars : String → Option V) (σ : Store V W) (u : V),
        arg.eval I vars = some u → (∀ x ∈ arg.vars, m.InPlace vars σ x) →
          ∃ σ', effects? I ls σ = some σ' ∧ Passes position σ σ' ∧ σ'.passed position = u := by
  unfold passArg at h
  split at h
  · -- a variable that travels in a register
    rename_i r x hr hx
    obtain rfl := literal_eq_inl hx
    obtain ⟨l, _, _, _, h₁, h₂, rfl⟩ := gives_bind.mp h
    obtain ⟨hl, rfl, rfl⟩ := gives_location.mp h₁
    obtain ⟨rfl, rfl⟩ := gives_assign.mp h₂
    refine ⟨hpool, fun I vars σ u hu hx => ⟨_, effects?_assign _ (eval_fromLocation I σ l),
      passes_setReg hr _ _, ?_⟩⟩
    refine (passed_setReg hr _ _ _).trans ?_
    rw [if_pos rfl]
    exact hx x.name List.mem_cons_self u l hu hl
  · -- a literal that travels in a register
    rename_i r v hr hv
    obtain ⟨rfl, rfl⟩ := gives_assign.mp h
    refine ⟨hpool, fun I vars σ u hu _ => ⟨_, effects?_assign _ rfl, passes_setReg hr _ _, ?_⟩⟩
    refine (passed_setReg hr _ _ _).trans ?_
    rw [if_pos rfl]
    exact Option.some.inj ((literal_eq_inr hv I vars σ).symm.trans hu)
  · -- a variable that travels in a slot
    rename_i x hr hx
    obtain rfl := literal_eq_inl hx
    obtain ⟨r, _, ls₁, _, h₁, h₂, rfl⟩ := gives_bind.mp h
    obtain ⟨_, _, _, _, h₃, h₄, rfl⟩ := gives_bind.mp h₂
    obtain ⟨rfl, rfl⟩ := gives_assign.mp h₃
    obtain ⟨l, hl, hload⟩ := load_spec hm hpool h₁
    obtain ⟨rfl, hready⟩ := giveBack_spec hload.ready h₄
    refine ⟨hready, fun I vars σ u hu hx => ?_⟩
    obtain ⟨σ₁, heff, hsame, hreg⟩ := hload.effect I σ
    have hpass := Passes.of_sameBut (fun _ => hpool.mem_scratches) position hsame
    refine ⟨_, effects?_trans heff (effects?_assign _ rfl),
      hpass.trans (passes_setOut hr _ _) (Nat.le_refl _), ?_⟩
    refine (passed_setOut hr _ _ _).trans ?_
    rw [if_pos rfl]
    exact hreg.trans (hx x.name List.mem_cons_self u l hu hl)
  · -- a literal that travels in a slot
    rename_i v hr hv
    obtain ⟨rfl, rfl⟩ := gives_assign.mp h
    refine ⟨hpool, fun I vars σ u hu _ => ⟨_, effects?_assign _ rfl, passes_setOut hr _ _, ?_⟩⟩
    refine (passed_setOut hr _ _ _).trans ?_
    rw [if_pos rfl]
    exact Option.some.inj ((literal_eq_inr hv I vars σ).symm.trans hu)

/-- All arguments are where the callee expects them. -/
theorem passArgs_spec (hm : m.WellFormed) (hpool : pool.Ready) {position : Nat}
    {args : List (Operand α)} {b : Unit} (h : (passArgs m position args).Gives pool ls pool' b) :
    pool'.Ready ∧
      ∀ {V W : Type} (I : Interp V W) (vars : String → Option V) (σ : Store V W) (us : List V),
        args.mapM (Operand.eval I vars) = some us →
          (∀ x ∈ args.flatMap Operand.vars, m.InPlace vars σ x) →
            ∃ σ', effects? I ls σ = some σ' ∧ Passes position σ σ' ∧
              ∀ j u, us[j]? = some u → σ'.passed (position + j) = u := by
  induction args generalizing position pool ls with
  | nil =>
    obtain ⟨rfl, rfl, -⟩ := gives_pure.mp h
    refine ⟨hpool, fun I vars σ us hus _ => ⟨σ, rfl, .of_sameBut (fun _ h => h) _ (.refl _ σ),
      fun j u hj => ?_⟩⟩
    obtain rfl : [] = us := Option.some.inj hus
    cases hj
  | cons arg args ih =>
    obtain ⟨_, pool₁, ls₁, ls₂, h₁, h₂, rfl⟩ := gives_bind.mp h
    obtain ⟨hready₁, hfirst⟩ := passArg_spec hm hpool h₁
    obtain ⟨hready₂, hrest⟩ := ih hready₁ h₂
    refine ⟨hready₂, fun I vars σ us hus hx => ?_⟩
    obtain ⟨u, us', hu, hus', rfl⟩ := mapM_eval_cons hus
    rw [List.flatMap_cons] at hx
    obtain ⟨σ₁, heff₁, hpass₁, hu₁⟩ := hfirst I vars σ u hu fun x h =>
      hx x (List.mem_append_left _ h)
    obtain ⟨σ₂, heff₂, hpass₂, hus₂⟩ := hrest I vars σ₁ us' hus' fun x h =>
      hpass₁.inPlace hm (hx x (List.mem_append_right _ h))
    refine ⟨σ₂, effects?_trans heff₁ heff₂, hpass₁.trans hpass₂ (by omega), fun j v hj => ?_⟩
    cases j with
    | zero =>
      obtain rfl : u = v := Option.some.inj hj
      rw [Nat.add_zero, hpass₂.before position (by omega), hu₁]
    | succ j =>
      rw [show position + (j + 1) = position + 1 + j by omega]
      exact hus₂ j v hj

/-- The last line hands control to the callee. -/
theorem transfer_spec (hm : m.WellFormed) (hpool : pool.Ready) {callee : Callee α} {b : Unit}
    (h : (transfer m callee).Gives pool ls pool' b) :
    pool'.Ready ∧ ∃ ls₀ target, ls = ls₀ ++ [.call target] ∧
      ∀ {V W : Type} (I : Interp V W) (vars : String → Option V) (σ : Store V W) (entry : Entry V),
        callee.eval vars = some entry → (∀ x ∈ callee.vars, m.InPlace vars σ x) →
          ∃ σ', effects? I ls₀ σ = some σ' ∧ σ.SameBut Register.scratches σ' ∧
            target.eval σ' = entry := by
  cases callee with
  | label f =>
    obtain ⟨rfl, rfl⟩ := gives_line.mp h
    refine ⟨hpool, [], .label f.name, rfl, fun I vars σ entry hentry _ => ?_⟩
    exact ⟨σ, rfl, .refl _ σ, Option.some.inj hentry⟩
  | var x =>
    obtain ⟨r, _, ls₁, _, h₁, h₂, rfl⟩ := gives_bind.mp h
    obtain ⟨_, _, _, _, h₃, h₄, rfl⟩ := gives_bind.mp h₂
    obtain ⟨rfl, rfl⟩ := gives_line.mp h₃
    obtain ⟨l, hl, hload⟩ := load_spec hm hpool h₁
    obtain ⟨rfl, hready⟩ := giveBack_spec hload.ready h₄
    refine ⟨hready, ls₁, .register r, rfl, fun I vars σ entry hentry hx => ?_⟩
    obtain ⟨v, hv, rfl⟩ := Option.map_eq_some_iff.mp hentry
    obtain ⟨σ₁, heff, hsame, hreg⟩ := hload.effect I σ
    refine ⟨σ₁, heff, (Store.SameBut.refl _ σ).trans hsame fun _ => hpool.mem_scratches, ?_⟩
    exact congrArg Entry.address (hreg.trans (hx x.name List.mem_cons_self v l hv hl))

/-! ### On entry -/

/-- What bringing some parameters to their places leaves alone. -/
structure Enters (m : Allocation) (live : Liveness) (xs : List (Ref α)) (σ σ' : Store V W) :
    Prop where
  read : ∀ l : Location, (∀ r, l = .register r → r ∉ Register.scratches) →
    (∀ x ∈ xs, x.name ∈ live.entry → m.location? x.name ≠ some l) → l.read σ' = l.read σ
  received : ∀ k, σ'.received k = σ.received k
  outside : σ'.outside = σ.outside

theorem Puts.received (hm : m.WellFormed) {σ σ' : Store V W} {x : String} {l : Location} {v : V}
    {o : Outside V W} (hl : m.location? x = some l) (h : Puts σ l v o σ') (k : Nat) :
    σ'.received k = σ.received k := by
  unfold Store.received
  split
  · rename_i r hr
    have harg := List.mem_of_getElem? hr
    refine h.regs r (Register.not_mem_scratches_of_argument harg) ?_
    rintro rfl
    exact Register.not_mem_arguments (hm.isAllocatable hl) harg
  · rw [h.ins]

theorem Puts.read_eq {σ σ' : Store V W} {l l' : Location} {v : V} {o : Outside V W}
    (h : Puts σ l v o σ') (hne : l ≠ l') (hl' : ∀ r, l' = .register r → r ∉ Register.scratches) :
    l'.read σ' = l'.read σ := by
  cases l' with
  | register r => exact h.regs r (hl' r rfl) hne
  | slot k => exact h.locals k hne

/-- A parameter has been put to its place. -/
theorem Puts.enters (hm : m.WellFormed) {live : Liveness} {x : Ref α} (hx : x.name ∈ live.entry)
    {l : Location} (hl : m.location? x.name = some l) {σ σ' : Store V W} {v : V}
    (h : Puts σ l v σ.outside σ') : Enters m live [x] σ σ' where
  read l' hl' hother := by
    refine h.read_eq ?_ hl'
    rintro rfl
    exact hother x List.mem_cons_self hx hl
  received := h.received hm hl
  outside := h.outside

/-- A parameter that is live and has a place is brought there. -/
theorem param_spec (hm : m.WellFormed) (hpool : pool.Ready) {live : Liveness} {position : Nat}
    {x : Ref α} {b : Unit} (h : (param m live position x).Gives pool ls pool' b) :
    pool'.Ready ∧
      ∀ {V W : Type} (I : Interp V W) (σ : Store V W), ∃ σ', effects? I ls σ = some σ' ∧
        Enters m live [x] σ σ' ∧ ∀ l, x.name ∈ live.entry → m.location? x.name = some l →
          l.read σ' = σ.received position := by
  have hsame : ∀ {V W : Type} (σ : Store V W), Enters m live [x] σ σ :=
    fun σ => ⟨fun _ _ _ => rfl, fun _ => rfl, rfl⟩
  unfold param at h
  split at h
  · rename_i hentry
    rw [List.contains_iff_mem] at hentry
    -- it is enough to have the parameter put to its place
    have hputs : ∀ {V W : Type} {I : Interp V W} {σ : Store V W} {l : Location},
        m.location? x.name = some l →
        (∃ σ', effects? I ls σ = some σ' ∧ Puts σ l (σ.received position) σ.outside σ') →
          ∃ σ', effects? I ls σ = some σ' ∧ Enters m live [x] σ σ' ∧
            ∀ l', x.name ∈ live.entry → m.location? x.name = some l' →
              l'.read σ' = σ.received position := by
      rintro V W I σ l hl ⟨σ', heff, hput⟩
      refine ⟨σ', heff, hput.enters hm hentry hl, fun l' _ hl' => ?_⟩
      obtain rfl : l = l' := Option.some.inj (hl.symm.trans hl')
      exact hput.read
    split at h
    · rename_i hl
      obtain ⟨rfl, rfl, -⟩ := gives_pure.mp h
      refine ⟨hpool, fun I σ => ⟨σ, rfl, hsame σ, fun l _ hl' => ?_⟩⟩
      rw [hl] at hl'
      cases hl'
    · -- it travels in a register
      rename_i l r hl hr
      obtain ⟨rfl, rfl⟩ := gives_assign.mp h
      refine ⟨hpool, fun I σ => hputs hl (put_effect l ?_)⟩
      rw [Store.received, hr]
      rfl
    · -- it travels in a slot and lives in a register
      rename_i r hl hr
      obtain ⟨rfl, rfl⟩ := gives_assign.mp h
      refine ⟨hpool, fun I σ => hputs hl (put_effect (.register r) ?_)⟩
      rw [Store.received, hr]
      rfl
    · -- it travels in a slot and lives in another
      rename_i k hl hr
      obtain ⟨r, _, _, _, h₁, h₂, rfl⟩ := gives_bind.mp h
      obtain ⟨rfl, hacq⟩ := gives_acquire.mp h₁
      obtain ⟨_, _, _, _, h₃, h₄, rfl⟩ := gives_bind.mp h₂
      obtain ⟨rfl, rfl⟩ := gives_assign.mp h₃
      obtain ⟨_, _, _, _, h₅, h₆, rfl⟩ := gives_bind.mp h₄
      obtain ⟨rfl, rfl⟩ := gives_assign.mp h₅
      obtain ⟨rfl, hrel⟩ := gives_release.mp h₆
      have hscratch : r ∈ Register.scratches := by
        refine hpool.mem_scratches ?_
        rw [(Pool.acquire_eq_ok.mp hacq).1]
        exact List.mem_cons_self
      refine ⟨(hpool.acquire hacq).release hrel, fun I σ =>
        hputs hl (put_through_effect hscratch k ?_)⟩
      rw [Store.received, hr]
      rfl
  · rename_i hentry
    rw [List.contains_iff_mem] at hentry
    obtain ⟨rfl, rfl, -⟩ := gives_pure.mp h
    exact ⟨hpool, fun I σ => ⟨σ, rfl, hsame σ, fun l hx => absurd hx hentry⟩⟩

/-- No two parameters that are live on entry have the same place. -/
def ParamsApart (m : Allocation) (live : Liveness) (xs : List (Ref α)) : Prop :=
  ∀ x ∈ xs, ∀ y ∈ xs, x.name ∈ live.entry → y.name ∈ live.entry → x.name ≠ y.name →
    m.location? x.name ≠ m.location? y.name

theorem params_spec (hm : m.WellFormed) (hpool : pool.Ready) {live : Liveness} {position : Nat}
    {xs : List (Ref α)} (hnodup : (xs.map Ref.name).Nodup) (hapart : ParamsApart m live xs)
    {b : Unit} (h : (params m live position xs).Gives pool ls pool' b) :
    pool'.Ready ∧
      ∀ {V W : Type} (I : Interp V W) (σ : Store V W), ∃ σ', effects? I ls σ = some σ' ∧
        Enters m live xs σ σ' ∧ ∀ j x l, xs[j]? = some x → x.name ∈ live.entry →
          m.location? x.name = some l → l.read σ' = σ.received (position + j) := by
  induction xs generalizing position pool ls with
  | nil =>
    obtain ⟨rfl, rfl, -⟩ := gives_pure.mp h
    refine ⟨hpool, fun I σ => ⟨σ, rfl, ⟨fun _ _ _ => rfl, fun _ => rfl, rfl⟩, ?_⟩⟩
    intro j x l hj
    cases hj
  | cons x xs ih =>
    obtain ⟨_, pool₁, ls₁, ls₂, h₁, h₂, rfl⟩ := gives_bind.mp h
    obtain ⟨hx, hnodup⟩ := List.nodup_cons.mp hnodup
    obtain ⟨hready₁, hfirst⟩ := param_spec hm hpool h₁
    obtain ⟨hready₂, hrest⟩ := ih hready₁ hnodup
      (fun y hy z hz => hapart y (List.mem_cons_of_mem _ hy) z (List.mem_cons_of_mem _ hz)) h₂
    refine ⟨hready₂, fun I σ => ?_⟩
    obtain ⟨σ₁, heff₁, hent₁, hput₁⟩ := hfirst I σ
    obtain ⟨σ₂, heff₂, hent₂, hput₂⟩ := hrest I σ₁
    refine ⟨σ₂, effects?_trans heff₁ heff₂, ⟨fun l hl hother => ?_, fun k => ?_, ?_⟩, ?_⟩
    · rw [hent₂.read l hl fun y hy => hother y (List.mem_cons_of_mem _ hy)]
      refine hent₁.read l hl fun y hy => ?_
      rw [List.mem_singleton.mp hy]
      exact hother x List.mem_cons_self
    · rw [hent₂.received, hent₁.received]
    · rw [hent₂.outside, hent₁.outside]
    · intro j y l hj hentry hl
      cases j with
      | zero =>
        -- the places of the others are different, so this one is left alone
        obtain rfl : x = y := Option.some.inj hj
        rw [Nat.add_zero, ← hput₁ l hentry hl]
        refine hent₂.read l ?_ fun z hz hz' hzl => ?_
        · rintro r rfl
          exact Register.not_mem_scratches (hm.isAllocatable hl)
        · have hne : x.name ≠ z.name := fun heq => hx (heq ▸ List.mem_map_of_mem hz)
          exact hapart x List.mem_cons_self z (List.mem_cons_of_mem _ hz) hentry hz' hne
            (hl.trans hzl.symm)
      | succ j =>
        rw [hput₂ j y l hj hentry hl, hent₁.received]
        congr 1
        omega

end Emit

/-- The value that a callee-saved register had on entry.  If the register is in use,
the value is kept in a slot. -/
def Allocation.onEntry (m : Allocation) (σ : Store V W) (r : Register) : V :=
  if r ∈ m.calleeSaved then σ.locals (m.calleeSaved.idxOf r) else σ.regs r

namespace Emit

variable {α : Type} {m : Allocation} {pool pool' : Pool} {ls : List Line}

/-- After the prologue the parameters that are live are in their places, and the
callee-saved registers in use are kept. -/
theorem prologue_spec (hm : m.WellFormed) (hpool : pool.Ready) {fn : Function α}
    {live : Liveness} (hnodup : (fn.params.map Ref.name).Nodup)
    (hapart : ParamsApart m live fn.params) {b : Unit}
    (h : (prologue fn m live).Gives pool ls pool' b) :
    pool'.Ready ∧
      ∀ {V W : Type} (I : Interp V W) (σ : Store V W), ∃ σ', effects? I ls σ = some σ' ∧
        σ'.outside = σ.outside ∧
        (∀ j x l, fn.params[j]? = some x → x.name ∈ live.entry → m.location? x.name = some l →
          l.read σ' = σ.received j) ∧
        ∀ r, r.isCalleeSaved = true → m.onEntry σ' r = σ.regs r := by
  unfold prologue at h
  obtain ⟨_, _, _, ls₂, h₁, h₂, rfl⟩ := gives_bind.mp h
  obtain ⟨rfl, rfl⟩ := gives_lines.mp h₁
  obtain ⟨hready, hparams⟩ := params_spec hm hpool hnodup hapart h₂
  refine ⟨hready, fun I σ => ?_⟩
  obtain ⟨locals, heff₁, hkept, -⟩ := saveLines_effect I 0 m.calleeSaved σ
  obtain ⟨σ₂, heff₂, hent, hput⟩ := hparams I { σ with locals := locals }
  refine ⟨σ₂, effects?_trans heff₁ heff₂, hent.outside, fun j x l hj hentry hl => ?_,
    fun r hr => ?_⟩
  · rw [hput j x l hj hentry hl, Nat.zero_add]
    rfl
  · unfold Allocation.onEntry
    have hscratch : r ∉ Register.scratches :=
      Register.not_mem_scratches (by simp [Register.isAllocatable, hr])
    split
    · rename_i hmem
      have hidx := List.idxOf_lt_length_of_mem hmem
      have hslot : σ₂.locals (m.calleeSaved.idxOf r) = locals (m.calleeSaved.idxOf r) := by
        refine hent.read (.slot _) (fun q hq => by cases hq) fun x _ _ hl => ?_
        exact absurd (hm.length_le_slot hl) (by omega)
      rw [hslot, ← hkept (m.calleeSaved.idxOf r) r ?_, Nat.zero_add]
      rw [List.getElem?_eq_getElem hidx, List.getElem_idxOf hidx]
    · rename_i hmem
      refine hent.read (.register r) (fun q hq => ?_) fun x _ _ hl => ?_
      · rw [← Location.register.inj hq]
        exact hscratch
      · exact hmem (Allocation.mem_calleeSaved_of_location? hl hr)

end Emit

end Vapor
