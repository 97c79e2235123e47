/-
Vapor/Proofs/Emission/Effects.lean

What the lines do that bring operands into registers and results into their places.
Loading operands changes nothing but scratch registers that were free
(`Store.SameBut`).  Setting a variable changes nothing but its place and scratch
registers (`Store.Puts`).
-/
import Vapor.Proofs.Emission.Basic
import Vapor.Proofs.Semantics.Machine

namespace Vapor

variable {V W : Type}

namespace Machine

/-! ### Straight lines -/

/-- The effect of lines one after another. -/
def effects? (I : Interp V W) : List Line → Store V W → Option (Store V W)
  | [], σ => some σ
  | l :: ls, σ => (l.effect? I σ).bind (effects? I ls)

variable {I : Interp V W} {σ σ₁ σ₂ : Store V W}

theorem effects?_trans {ls ms : List Line} (h₁ : effects? I ls σ = some σ₁)
    (h₂ : effects? I ms σ₁ = some σ₂) : effects? I (ls ++ ms) σ = some σ₂ := by
  induction ls generalizing σ with
  | nil =>
    obtain rfl := Option.some.inj h₁
    exact h₂
  | cons l ls ih =>
    obtain ⟨τ, hτ, h₁⟩ := Option.bind_eq_some_iff.mp h₁
    rw [List.cons_append, effects?, hτ, Option.bind_some, ih h₁]

/-- The effect of an assignment. -/
theorem effects?_assign (dest : Dest) {source : Source} {v : V} {o : Outside V W}
    (h : source.eval I σ = (v, o)) :
    effects? I [.assign dest source] σ = some ((σ.setOutside o).write I v dest) := by
  simp only [effects?, Line.effect?, h, Option.bind_some]

/-! ### Loading -/

/-- Nothing has changed but some registers. -/
structure Store.SameBut (rs : List Register) (σ σ' : Store V W) : Prop where
  regs : ∀ r, r ∉ rs → σ'.regs r = σ.regs r
  ins : σ'.ins = σ.ins
  outs : σ'.outs = σ.outs
  locals : σ'.locals = σ.locals
  outside : σ'.outside = σ.outside

namespace Store.SameBut

variable {rs rs' : List Register}

theorem refl (rs : List Register) (σ : Store V W) : σ.SameBut rs σ :=
  ⟨fun _ _ => rfl, rfl, rfl, rfl, rfl⟩

theorem trans (h₁ : σ.SameBut rs σ₁) (h₂ : σ₁.SameBut rs' σ₂) (hsub : rs' ⊆ rs) :
    σ.SameBut rs σ₂ where
  regs r hr := (h₂.regs r fun h => hr (hsub h)).trans (h₁.regs r hr)
  ins := h₂.ins.trans h₁.ins
  outs := h₂.outs.trans h₁.outs
  locals := h₂.locals.trans h₁.locals
  outside := h₂.outside.trans h₁.outside

theorem setReg {r : Register} (hr : r ∈ rs) (v : V) : σ.SameBut rs (σ.setReg r v) where
  regs q hq := if_neg fun h : q = r => hq (h ▸ hr)
  ins := rfl
  outs := rfl
  locals := rfl
  outside := rfl

/-- A value that uses none of the registers stays what it is. -/
theorem eval_value (h : σ.SameBut rs σ₁) {v : Value} (hv : ∀ r, v = .register r → r ∉ rs) :
    v.eval I σ₁ = v.eval I σ := by
  cases v with
  | register r => exact h.regs r (hv r rfl)
  | int | label | text => rfl

theorem map_eval (h : σ.SameBut rs σ₁) {vs : List Value}
    (hvs : ∀ v ∈ vs, ∀ r, v = .register r → r ∉ rs) :
    vs.map (Value.eval I σ₁) = vs.map (Value.eval I σ) :=
  List.map_congr_left fun v hv => h.eval_value (hvs v hv)

end Store.SameBut

end Machine

open Machine

/-- What a place holds. -/
def Location.read (σ : Store V W) : Location → V
  | register r => σ.regs r
  | slot k => σ.locals k

/-- A variable that has been written has its value in its place. -/
def Allocation.InPlace (m : Allocation) (vars : String → Option V) (σ : Store V W)
    (x : String) : Prop :=
  ∀ v l, vars x = some v → m.location? x = some l → l.read σ = v

namespace Allocation

variable {m : Allocation} {vars : String → Option V} {σ σ' : Store V W} {x : String}

theorem InPlace.congr (h : m.InPlace vars σ x)
    (hread : ∀ l, m.location? x = some l → l.read σ' = l.read σ) : m.InPlace vars σ' x :=
  fun v l hv hl => (hread l hl).trans (h v l hv hl)

/-- Scratch registers are not places of variables. -/
theorem WellFormed.read_eq (hm : m.WellFormed) {rs : List Register}
    (hrs : rs ⊆ Register.scratches) (h : σ.SameBut rs σ') {l : Location}
    (hl : m.location? x = some l) : l.read σ' = l.read σ := by
  cases l with
  | register r => exact h.regs r fun hr => Register.not_mem_scratches (hm.isAllocatable hl) (hrs hr)
  | slot k => exact congrFun h.locals k

theorem WellFormed.inPlace (hm : m.WellFormed) {rs : List Register}
    (hrs : rs ⊆ Register.scratches) (h : σ.SameBut rs σ') (hx : m.InPlace vars σ x) :
    m.InPlace vars σ' x :=
  hx.congr fun _ hl => hm.read_eq hrs h hl

end Allocation

namespace Emit

variable {α : Type} {m : Allocation} {pool pool' : Pool} {ls : List Line}

theorem gives_location {x : Ref α} {l : Location} :
    (location m x).Gives pool ls pool' l ↔
      m.location? x.name = some l ∧ ls = [] ∧ pool' = pool := by
  unfold location
  split
  · rename_i l' hl
    rw [gives_pure, hl, Option.some.injEq]
    exact ⟨fun ⟨h₁, h₂, h₃⟩ => ⟨h₃.symm, h₁, h₂⟩, fun ⟨h₁, h₂, h₃⟩ => ⟨h₂, h₃, h₁.symm⟩⟩
  · rename_i hl
    rw [gives_fail, hl]
    simp

/-- A variable in a register is used where it is, one in a slot is brought into a
scratch register. -/
theorem gives_load {x : Ref α} {r : Register} :
    (load m x).Gives pool ls pool' r ↔
      (m.location? x.name = some (.register r) ∧ ls = [] ∧ pool' = pool) ∨
        ∃ k, m.location? x.name = some (.slot k) ∧ pool.acquire = .ok (r, pool') ∧
          ls = [.assign (.register r) (.localSlot k)] := by
  unfold load
  rw [gives_bind]
  simp only [gives_location]
  constructor
  · rintro ⟨l, _, _, ls₂, ⟨hl, rfl, rfl⟩, h, rfl⟩
    cases l with
    | register q =>
      obtain ⟨rfl, rfl, rfl⟩ := gives_pure.mp h
      exact .inl ⟨hl, rfl, rfl⟩
    | slot k =>
      obtain ⟨q, pool₁, _, _, h₁, h₂, rfl⟩ := gives_bind.mp h
      obtain ⟨rfl, hacq⟩ := gives_acquire.mp h₁
      obtain ⟨_, _, _, _, h₃, h₄, rfl⟩ := gives_bind.mp h₂
      obtain ⟨rfl, rfl⟩ := gives_assign.mp h₃
      obtain ⟨rfl, rfl, rfl⟩ := gives_pure.mp h₄
      exact .inr ⟨k, hl, hacq, rfl⟩
  · rintro (⟨hl, rfl, rfl⟩ | ⟨k, hl, hacq, rfl⟩)
    · exact ⟨_, _, [], [], ⟨hl, rfl, rfl⟩, gives_pure.mpr ⟨rfl, rfl, rfl⟩, rfl⟩
    · refine ⟨_, _, [], _, ⟨hl, rfl, rfl⟩, ?_, rfl⟩
      refine gives_bind.mpr ⟨r, pool', [], _, gives_acquire.mpr ⟨rfl, hacq⟩, ?_, rfl⟩
      exact gives_bind.mpr ⟨(), pool', _, [], gives_assign.mpr ⟨rfl, rfl⟩,
        gives_pure.mpr ⟨rfl, rfl, rfl⟩, rfl⟩

/-- A register stands for a place: it is the place, or the place is a slot and the
register a scratch register. -/
def Carries (r : Register) (l : Location) : Prop :=
  l = .register r ∨ r ∈ Register.scratches ∧ ∃ k, l = .slot k

/-- What lines do that bring what a place holds into a register. -/
structure Loads (pool : Pool) (ls : List Line) (pool' : Pool) (l : Location)
    (r : Register) : Prop where
  ready : pool'.Ready
  subset : pool'.free ⊆ pool.free
  unfree : r ∉ pool'.free
  carries : Carries r l
  effect : ∀ {V W : Type} (I : Interp V W) (σ : Store V W), ∃ σ', effects? I ls σ = some σ' ∧
    σ.SameBut pool.free σ' ∧ σ'.regs r = l.read σ

theorem load_spec (hm : m.WellFormed) (hpool : pool.Ready) {x : Ref α} {r : Register}
    (h : (load m x).Gives pool ls pool' r) :
    ∃ l, m.location? x.name = some l ∧ Loads pool ls pool' l r := by
  rcases gives_load.mp h with ⟨hl, rfl, rfl⟩ | ⟨k, hl, hacq, rfl⟩
  · refine ⟨_, hl, hpool, fun _ h => h, ?_, .inl rfl, fun I σ => ?_⟩
    · exact fun hr => Register.not_mem_scratches (hm.isAllocatable hl) (hpool.mem_scratches hr)
    · exact ⟨σ, rfl, .refl _ σ, rfl⟩
  · obtain ⟨hfree, -⟩ := Pool.acquire_eq_ok.mp hacq
    have hr : r ∈ pool.free := hfree ▸ List.mem_cons_self
    have hnodup := hpool.tidy.nodup_free
    rw [hfree] at hnodup
    refine ⟨_, hl, hpool.acquire hacq, ?_, (List.nodup_cons.mp hnodup).1,
      .inr ⟨hpool.mem_scratches hr, k, rfl⟩, fun I σ => ?_⟩
    · intro q hq
      rw [hfree]
      exact List.mem_cons_of_mem _ hq
    · exact ⟨σ.setReg r (σ.locals k), rfl, .setReg hr _, if_pos rfl⟩

/-! ### Operands -/

/-- What lines do that make an operand a value. -/
structure Evaluates (m : Allocation) (pool : Pool) (ls : List Line) (pool' : Pool)
    (o : Operand α) (v : Value) : Prop where
  ready : pool'.Ready
  subset : pool'.free ⊆ pool.free
  unfree : ∀ r, v = .register r → r ∉ pool'.free
  effect : ∀ {V W : Type} (I : Interp V W) (vars : String → Option V) (σ : Store V W) (u : V),
    o.eval I vars = some u → (∀ x ∈ o.vars, m.InPlace vars σ x) →
      ∃ σ', effects? I ls σ = some σ' ∧ σ.SameBut pool.free σ' ∧ v.eval I σ' = u

/-- An operand that is not a variable stands for itself. -/
theorem Evaluates.literal (hpool : pool.Ready) {o : Operand α} {v : Value}
    (hv : ∀ r, v ≠ .register r)
    (heval : ∀ {V W : Type} (I : Interp V W) (vars : String → Option V) (σ : Store V W),
      o.eval I vars = some (v.eval I σ)) : Evaluates m pool [] pool o v where
  ready := hpool
  subset _ h := h
  unfree r h := absurd h (hv r)
  effect I vars σ _ hu _ :=
    ⟨σ, rfl, .refl _ σ, Option.some.inj ((heval I vars σ).symm.trans hu)⟩

theorem value_spec (hm : m.WellFormed) (hpool : pool.Ready) {o : Operand α} {v : Value}
    (h : (value m o).Gives pool ls pool' v) : Evaluates m pool ls pool' o v := by
  unfold value at h
  cases o with
  | var ref =>
    obtain ⟨r, _, _, _, h₁, h₂, rfl⟩ := gives_bind.mp h
    obtain ⟨rfl, rfl, rfl⟩ := gives_pure.mp h₂
    obtain ⟨l, hl, hload⟩ := load_spec hm hpool h₁
    rw [List.append_nil]
    refine ⟨hload.ready, hload.subset, fun q hq => ?_, fun I vars σ u hu hx => ?_⟩
    · rw [← Value.register.inj hq]
      exact hload.unfree
    · obtain ⟨σ', heff, hsame, hr⟩ := hload.effect I σ
      exact ⟨σ', heff, hsame, hr.trans (hx ref.name List.mem_cons_self u l hu hl)⟩
  | int | text | label =>
    obtain ⟨rfl, rfl, rfl⟩ := gives_pure.mp h
    exact .literal hpool (fun r h => by cases h) fun I vars σ => rfl

/-- What lines do that make operands values. -/
structure EvaluatesAll (m : Allocation) (pool : Pool) (ls : List Line) (pool' : Pool)
    (os : List (Operand α)) (vs : List Value) : Prop where
  ready : pool'.Ready
  subset : pool'.free ⊆ pool.free
  unfree : ∀ v ∈ vs, ∀ r, v = .register r → r ∉ pool'.free
  effect : ∀ {V W : Type} (I : Interp V W) (vars : String → Option V) (σ : Store V W)
    (us : List V), os.mapM (Operand.eval I vars) = some us →
      (∀ x ∈ os.flatMap Operand.vars, m.InPlace vars σ x) →
        ∃ σ', effects? I ls σ = some σ' ∧ σ.SameBut pool.free σ' ∧ vs.map (Value.eval I σ') = us

/-- Evaluating the operands of a list evaluates the first one and then the others. -/
theorem mapM_eval_cons {I : Interp V W} {vars : String → Option V} {o : Operand α}
    {os : List (Operand α)} {us : List V}
    (h : (o :: os).mapM (Operand.eval I vars) = some us) :
    ∃ u us', o.eval I vars = some u ∧ os.mapM (Operand.eval I vars) = some us' ∧
      us = u :: us' := by
  rw [List.mapM_cons] at h
  obtain ⟨u, hu, h⟩ := Option.bind_eq_some_iff.mp h
  obtain ⟨us', hus, h⟩ := Option.bind_eq_some_iff.mp h
  exact ⟨u, us', hu, hus, (Option.some.inj h).symm⟩

theorem values_spec (hm : m.WellFormed) (hpool : pool.Ready) {os : List (Operand α)}
    {vs : List Value} (h : (values m os).Gives pool ls pool' vs) :
    EvaluatesAll m pool ls pool' os vs := by
  induction os generalizing pool ls vs with
  | nil =>
    obtain ⟨rfl, rfl, rfl⟩ := gives_pure.mp h
    refine ⟨hpool, fun _ h => h, fun v hv => absurd hv List.not_mem_nil, fun I vars σ us hus _ => ?_⟩
    exact ⟨σ, rfl, .refl _ σ, Option.some.inj hus⟩
  | cons o os ih =>
    unfold values at h
    obtain ⟨v, pool₁, ls₁, _, h₁, h₂, rfl⟩ := gives_bind.mp h
    obtain ⟨vs', pool₂, ls₂, _, h₃, h₄, rfl⟩ := gives_bind.mp h₂
    obtain ⟨rfl, rfl, rfl⟩ := gives_pure.mp h₄
    have hfirst := value_spec hm hpool h₁
    have hrest := ih hfirst.ready h₃
    rw [List.append_nil]
    refine ⟨hrest.ready, fun q hq => hfirst.subset (hrest.subset hq), fun w hw r hr => ?_,
      fun I vars σ us hus hx => ?_⟩
    · rcases List.mem_cons.mp hw with rfl | hw
      · exact fun hq => hfirst.unfree r hr (hrest.subset hq)
      · exact hrest.unfree w hw r hr
    · obtain ⟨u, us', hu, hus', rfl⟩ := mapM_eval_cons hus
      rw [List.flatMap_cons] at hx
      obtain ⟨σ₁, heff₁, hsame₁, hv⟩ := hfirst.effect I vars σ u hu fun x h =>
        hx x (List.mem_append_left _ h)
      have hx₁ : ∀ x ∈ os.flatMap Operand.vars, m.InPlace vars σ₁ x := fun x h =>
        hm.inPlace (fun _ => hpool.mem_scratches) hsame₁ (hx x (List.mem_append_right _ h))
      obtain ⟨σ₂, heff₂, hsame₂, hvs⟩ := hrest.effect I vars σ₁ us' hus' hx₁
      refine ⟨σ₂, effects?_trans heff₁ heff₂, hsame₁.trans hsame₂ hfirst.subset, ?_⟩
      -- the first value is not in a register that the others are loaded into
      rw [List.map_cons, hvs, hsame₂.eval_value hfirst.unfree, hv]

theorem drop_spec (hpool : pool.Ready) {v : Value} {b : Unit}
    (h : (drop v : Gen α Unit).Gives pool ls pool' b) : ls = [] ∧ pool'.Ready := by
  cases v with
  | register r => exact giveBack_spec hpool h
  | int | label | text =>
    obtain ⟨rfl, rfl, -⟩ := gives_pure.mp h
    exact ⟨rfl, hpool⟩

theorem dropAll_spec (hpool : pool.Ready) {vs : List Value} {b : Unit}
    (h : (dropAll vs : Gen α Unit).Gives pool ls pool' b) : ls = [] ∧ pool'.Ready := by
  induction vs generalizing pool ls with
  | nil =>
    obtain ⟨rfl, rfl, -⟩ := gives_pure.mp h
    exact ⟨rfl, hpool⟩
  | cons v vs ih =>
    obtain ⟨_, _, _, _, h₁, h₂, rfl⟩ := gives_bind.mp h
    obtain ⟨rfl, hpool₁⟩ := drop_spec hpool h₁
    exact ih hpool₁ h₂

/-! ### Setting a variable -/

/-- A place has been given a value; besides, only scratch registers and outgoing
slots may have changed, and what is outside. -/
structure Puts (σ : Store V W) (l : Location) (v : V) (o : Outside V W)
    (σ' : Store V W) : Prop where
  read : l.read σ' = v
  regs : ∀ r, r ∉ Register.scratches → l ≠ .register r → σ'.regs r = σ.regs r
  locals : ∀ k, l ≠ .slot k → σ'.locals k = σ.locals k
  ins : σ'.ins = σ.ins
  outside : σ'.outside = o

theorem Puts.of_sameBut {rs : List Register} (hrs : rs ⊆ Register.scratches)
    {σ σ₁ σ' : Store V W} {l : Location} {v : V} {o : Outside V W} (h : σ.SameBut rs σ₁)
    (hputs : Puts σ₁ l v o σ') : Puts σ l v o σ' where
  read := hputs.read
  regs r hr hl := (hputs.regs r hr hl).trans (h.regs r fun h' => hr (hrs h'))
  locals k hl := (hputs.locals k hl).trans (congrFun h.locals k)
  ins := hputs.ins.trans h.ins
  outside := hputs.outside

theorem gives_store {x : Ref α} {r : Register} {b : Unit} :
    (store m r x : Gen α Unit).Gives pool ls pool' b ↔
      ls = (m.slot? x.name).toList.map (fun k => .assign (.localSlot k) (.value (.register r))) ∧
        pool' = pool := by
  unfold store
  split
  · rename_i k hk
    rw [gives_assign, hk]
    rfl
  · rename_i hk
    rw [gives_pure, hk]
    exact and_congr_right fun _ => and_iff_left rfl

/-- A line that assigns to a place. -/
theorem put_effect (l : Location) {I : Interp V W} {σ : Store V W} {source : Source} {v : V}
    {o : Outside V W} (heval : source.eval I σ = (v, o)) :
    ∃ σ', effects? I [.assign (toLocation l) source] σ = some σ' ∧ Puts σ l v o σ' := by
  refine ⟨_, effects?_assign (toLocation l) heval, ?_⟩
  cases l with
  | register r =>
    refine ⟨if_pos rfl, fun q _ hq => if_neg ?_, fun _ _ => rfl, rfl, rfl⟩
    rintro rfl
    exact hq rfl
  | slot k =>
    refine ⟨if_pos rfl, fun _ _ _ => rfl, fun j hj => if_neg ?_, rfl, rfl⟩
    rintro rfl
    exact hj rfl

/-- Two lines that assign to a slot by way of a scratch register. -/
theorem put_through_effect {r : Register} (hr : r ∈ Register.scratches) (k : Nat)
    {I : Interp V W} {σ : Store V W} {source : Source} {v : V} {o : Outside V W}
    (heval : source.eval I σ = (v, o)) :
    ∃ σ', effects? I [.assign (.register r) source, .assign (.localSlot k) (.value (.register r))] σ
        = some σ' ∧ Puts σ (.slot k) v o σ' := by
  refine ⟨_, effects?_trans (effects?_assign (.register r) heval)
    (effects?_assign (.localSlot k) rfl), ?_, fun q hq _ => if_neg ?_, fun j hj => if_neg ?_,
    rfl, rfl⟩
  · show (if k = k then _ else _) = v
    rw [if_pos rfl]
    exact if_pos rfl
  · rintro rfl
    exact hq hr
  · rintro rfl
    exact hj rfl

/-- A register is set and brought to the place that it stands for. -/
theorem set_effect (hm : m.WellFormed) {x : Ref α} {l : Location} {r : Register}
    (hl : m.location? x.name = some l) (hr : Carries r l) {b : Unit}
    (hstore : (store m r x).Gives pool ls pool' b) {I : Interp V W} {σ : Store V W}
    {source : Source} {v : V} {o : Outside V W} (heval : source.eval I σ = (v, o)) :
    ∃ σ', effects? I (.assign (.register r) source :: ls) σ = some σ' ∧ Puts σ l v o σ' := by
  obtain ⟨rfl, -⟩ := gives_store.mp hstore
  rcases hr with rfl | ⟨hr, k, rfl⟩
  · rw [hm.slot?_eq_none hl]
    exact put_effect (.register r) heval
  · rw [(Allocation.location?_eq_slot.mp hl).2]
    exact put_through_effect hr k heval

/-- A line that sets a variable.  Its source is evaluated after the variable has
been loaded. -/
theorem define_spec (hm : m.WellFormed) (hpool : pool.Ready) {x : Ref α} {source : Source}
    {b : Unit} (h : (define m x source).Gives pool ls pool' b) :
    pool'.Ready ∧ ls ≠ [] ∧ ∃ l, m.location? x.name = some l ∧
      ∀ {V W : Type} (I : Interp V W) (σ : Store V W) (v : V) (o : Outside V W),
        (∀ σ₁, σ.SameBut pool.free σ₁ → source.eval I σ₁ = (v, o)) →
          ∃ σ', effects? I ls σ = some σ' ∧ Puts σ l v o σ' := by
  unfold define at h
  obtain ⟨r, pool₁, ls₁, _, h₁, h₂, rfl⟩ := gives_bind.mp h
  obtain ⟨_, _, _, _, h₃, h₄, rfl⟩ := gives_bind.mp h₂
  obtain ⟨rfl, rfl⟩ := gives_assign.mp h₃
  obtain ⟨_, pool₂, ls₂, _, h₅, h₆, rfl⟩ := gives_bind.mp h₄
  obtain ⟨l, hl, hload⟩ := load_spec hm hpool h₁
  obtain ⟨-, rfl⟩ := gives_store.mp h₅
  obtain ⟨rfl, hready⟩ := giveBack_spec hload.ready h₆
  refine ⟨hready, by simp, l, hl, fun I σ v o heval => ?_⟩
  obtain ⟨σ₁, heff₁, hsame, -⟩ := hload.effect I σ
  obtain ⟨σ₂, heff₂, hputs⟩ := set_effect hm hl hload.carries h₅ (heval σ₁ hsame)
  refine ⟨σ₂, ?_, hputs.of_sameBut (fun _ => hpool.mem_scratches) hsame⟩
  rw [List.append_nil]
  exact effects?_trans heff₁ heff₂

end Emit

end Vapor
