/-
Vapor/Proofs/Emission/Lines.lean

Which lines are written.  `Written` lists the lines that can stand among those of an
instruction, each with what is known of the registers, slots and values in it, and
`Arriving` the lines that bring parameters to their places.  So a property of all
lines of a function is shown by going through these lists, and no generator has to be
taken apart again.

The lists are justified by a small logic of generators (`Keeps`): started with a pool
of scratch registers, a generator writes only lines of a certain kind, leaves such a
pool behind and returns what it should, whether it succeeds or not.
-/
import Vapor.Proofs.Emission.Effects

namespace Vapor

namespace Emit

open Machine

/-! ### A logic of generators -/

section Logic

variable {ε β γ : Type} {P : Line → Prop} {Q : β → Prop} {R : γ → Prop}

/-- With a pool of scratch registers the generator writes only lines that satisfy `P`,
leaves such a pool behind, and if it succeeds then its result satisfies `Q`. -/
def Keeps (P : Line → Prop) (Q : β → Prop) (g : Emit ε β) : Prop :=
  ∀ pool, pool.Ready → (∀ l ∈ (g pool).lines, P l) ∧ (g pool).pool.Ready ∧
    ∀ b, (g pool).result = .ok b → Q b

theorem keeps_pure {b : β} (h : Q b) : Keeps P Q (pure b : Emit ε β) := by
  refine fun pool hpool => ⟨fun l hl => absurd hl List.not_mem_nil, hpool, fun c hc => ?_⟩
  rw [← Except.ok.inj hc]
  exact h

theorem keeps_fail (e : ε) : Keeps P Q (fail e : Emit ε β) :=
  fun _ hpool => ⟨fun _ hl => absurd hl List.not_mem_nil, hpool, fun _ hc => by cases hc⟩

theorem keeps_now : Keeps P (fun _ => True) (Emit.pool : Emit ε Pool) :=
  fun _ hpool => ⟨fun _ hl => absurd hl List.not_mem_nil, hpool, fun _ _ => trivial⟩

theorem keeps_lines {ls : List Line} (h : ∀ l ∈ ls, P l) :
    Keeps P (fun _ => True) (lines ls : Emit ε Unit) :=
  fun _ hpool => ⟨h, hpool, fun _ _ => trivial⟩

theorem keeps_line {l : Line} (h : P l) : Keeps P (fun _ => True) (line l : Emit ε Unit) :=
  keeps_lines fun _ hl => List.mem_singleton.mp hl ▸ h

theorem keeps_assign {dest : Dest} {source : Source} (h : P (.assign dest source)) :
    Keeps P (fun _ => True) (assign dest source : Emit ε Unit) :=
  keeps_line h

theorem keeps_bind {g : Emit ε β} {f : β → Emit ε γ} (hg : Keeps P Q g)
    (hf : ∀ b, Q b → Keeps P R (f b)) : Keeps P R (g >>= f) := by
  intro pool hpool
  obtain ⟨hlines, hready, hresult⟩ := hg pool hpool
  rcases hres : (g pool).result with e | b
  · rw [bind_of_error hres]
    exact ⟨hlines, hready, fun c hc => by cases hc⟩
  · rw [bind_of_ok hres]
    obtain ⟨hlines', hready', hresult'⟩ := hf b (hresult b hres) _ hready
    refine ⟨fun l hl => ?_, hready', hresult'⟩
    rcases List.mem_append.mp hl with hl | hl
    · exact hlines l hl
    · exact hlines' l hl

/-- What the first generator returns does not matter. -/
theorem keeps_then {g : Emit ε Unit} {f : Unit → Emit ε γ} (hg : Keeps P (fun _ => True) g)
    (hf : Keeps P R (f ())) : Keeps P R (g >>= f) :=
  keeps_bind hg fun _ _ => hf

end Logic

/-! ### Operands -/

/-- The register holds the variable within an instruction. -/
def Stands (m : Allocation) (x : String) (r : Register) : Prop :=
  ∃ l, m.location? x = some l ∧ Carries r l

/-- The value is what an operand is written as. -/
inductive Becomes {α : Type} (m : Allocation) : Operand α → Value → Prop where
  | var {x : Ref α} {r : Register} (hr : Stands m x.name r) : Becomes m (.var x) (.register r)
  | literal {o : Operand α} {v : Value} (hv : literal o = .inr v) : Becomes m o v

section Operands

variable {α : Type} {m : Allocation} {P : Line → Prop}

theorem keeps_acquire : Keeps P (· ∈ Register.scratches) (acquire : Gen α Register) := by
  intro pool hpool
  unfold acquire
  rcases hacq : pool.acquire with e | ⟨r, rest⟩
  · exact ⟨fun _ hl => absurd hl List.not_mem_nil, hpool, fun _ hc => by cases hc⟩
  · refine ⟨fun _ hl => absurd hl List.not_mem_nil, hpool.acquire hacq, fun q hq => ?_⟩
    rw [← Except.ok.inj hq]
    refine hpool.mem_scratches ?_
    rw [(Pool.acquire_eq_ok.mp hacq).1]
    exact List.mem_cons_self

theorem keeps_release (r : Register) :
    Keeps P (fun _ => True) (release r : Gen α Unit) := by
  intro pool hpool
  unfold release
  rcases hrel : pool.release r with e | rest
  · exact ⟨fun _ hl => absurd hl List.not_mem_nil, hpool, fun _ _ => trivial⟩
  · exact ⟨fun _ hl => absurd hl List.not_mem_nil, hpool.release hrel, fun _ _ => trivial⟩

theorem keeps_giveBack (r : Register) :
    Keeps P (fun _ => True) (giveBack r : Gen α Unit) := by
  refine keeps_bind keeps_now fun now _ => ?_
  split
  · exact keeps_release r
  · exact keeps_pure trivial

theorem keeps_location (x : Ref α) :
    Keeps P (fun l => m.location? x.name = some l) (location m x) := by
  unfold location
  split
  · exact keeps_pure ‹_›
  · exact keeps_fail _

/-- The lines that load variables from their slots satisfy `P`. -/
def Fetches (m : Allocation) (P : Line → Prop) (xs : List String) : Prop :=
  ∀ x ∈ xs, ∀ k r, m.location? x = some (.slot k) → r ∈ Register.scratches →
    P (.assign (.register r) (.localSlot k))

theorem Fetches.mono {xs ys : List String} (h : Fetches m P ys) (hsub : xs ⊆ ys) :
    Fetches m P xs :=
  fun x hx => h x (hsub hx)

theorem keeps_load {x : Ref α} (hfetch : Fetches m P [x.name]) :
    Keeps P (Stands m x.name) (load m x) := by
  refine keeps_bind (keeps_location x) fun l hl => ?_
  cases l with
  | register r => exact keeps_pure ⟨_, hl, .inl rfl⟩
  | slot k =>
    refine keeps_bind keeps_acquire fun r hr => ?_
    refine keeps_then (keeps_assign (hfetch x.name List.mem_cons_self k r hl hr)) ?_
    exact keeps_pure ⟨_, hl, .inr ⟨hr, k, rfl⟩⟩

theorem keeps_value {o : Operand α} (hfetch : Fetches m P o.vars) :
    Keeps P (Becomes m o) (value m o) := by
  unfold value
  split
  · rename_i x hx
    cases o <;> cases hx
    exact keeps_bind (keeps_load hfetch) fun r hr => keeps_pure (.var hr)
  · exact keeps_pure (.literal ‹_›)

theorem keeps_values {os : List (Operand α)} (hfetch : Fetches m P (os.flatMap Operand.vars)) :
    Keeps P (List.Forall₂ (Becomes m) os) (values m os) := by
  induction os with
  | nil => exact keeps_pure .nil
  | cons o os ih =>
    rw [List.flatMap_cons] at hfetch
    refine keeps_bind (keeps_value (hfetch.mono (List.subset_append_left _ _))) fun v hv => ?_
    refine keeps_bind (ih (hfetch.mono (List.subset_append_right _ _))) fun vs hvs => ?_
    exact keeps_pure (.cons hv hvs)

theorem keeps_drop (v : Value) : Keeps P (fun _ => True) (drop v : Gen α Unit) := by
  cases v with
  | register r => exact keeps_giveBack r
  | int | label | text => exact keeps_pure trivial

theorem keeps_dropAll (vs : List Value) :
    Keeps P (fun _ => True) (dropAll vs : Gen α Unit) := by
  induction vs with
  | nil => exact keeps_pure trivial
  | cons v vs ih => exact keeps_then (keeps_drop v) ih

/-- The lines that bring scratch registers to the slot of a variable satisfy `P`. -/
def PutsBack (m : Allocation) (P : Line → Prop) (x : String) : Prop :=
  ∀ k r, m.location? x = some (.slot k) → r ∈ Register.scratches →
    P (.assign (.localSlot k) (.value (.register r)))

theorem keeps_store (hm : m.WellFormed) {x : Ref α} {r : Register} (hr : Stands m x.name r)
    (hback : PutsBack m P x.name) : Keeps P (fun _ => True) (store m r x) := by
  unfold store
  split
  · rename_i k hk
    have hl := Allocation.location?_eq_slot.mpr ⟨hm.register?_eq_none hk, hk⟩
    obtain ⟨l, hl', hcarries⟩ := hr
    obtain rfl : Location.slot k = l := Option.some.inj (hl.symm.trans hl')
    rcases hcarries with hcarries | ⟨hscratch, -⟩
    · cases hcarries
    · exact keeps_assign (hback k r hl hscratch)
  · exact keeps_pure trivial

theorem keeps_define (hm : m.WellFormed) {x : Ref α} {source : Source}
    (hfetch : Fetches m P [x.name]) (hback : PutsBack m P x.name)
    (hset : ∀ r, Stands m x.name r → P (.assign (.register r) source)) :
    Keeps P (fun _ => True) (define m x source) := by
  refine keeps_bind (keeps_load hfetch) fun r hr => keeps_then (keeps_assign (hset r hr)) ?_
  exact keeps_then (keeps_store hm hr hback) (keeps_giveBack r)

end Operands

/-! ### Instructions -/

/-- The lines that can stand among those of an instruction, `kept` being the registers
that are kept across it if it is a call. -/
inductive Written {α : Type} (m : Allocation) (kept : List Register) : Instr α → Line → Prop where
  /-- A variable is loaded from its slot. -/
  | fetch {i : Instr α} {x : String} {k : Nat} {r : Register} (hx : x ∈ i.uses ∨ x ∈ i.defs)
      (hk : m.location? x = some (.slot k)) (hr : r ∈ Register.scratches) :
      Written m kept i (.assign (.register r) (.localSlot k))
  /-- A variable is brought back to its slot. -/
  | putBack {i : Instr α} {x : String} {k : Nat} {r : Register} (hx : x ∈ i.defs)
      (hk : m.location? x = some (.slot k)) (hr : r ∈ Register.scratches) :
      Written m kept i (.assign (.localSlot k) (.value (.register r)))
  | assign {dest : Ref α} {source : Operand α} {note : α} {r : Register} {v : Value}
      (hr : Stands m dest.name r) (hv : Becomes m source v) :
      Written m kept (.assign dest source note) (.assign (.register r) (.value v))
  | keep {dest : Option (Ref α)} {callee : Callee α} {args : List (Operand α)} {note : α}
      {j : Nat} {r : Register} (hj : kept[j]? = some r) :
      Written m kept (.call dest callee args note)
        (.assign (.localSlot (m.slotCount + j)) (.value (.register r)))
  | passVar {dest : Option (Ref α)} {callee : Callee α} {args : List (Operand α)} {note : α}
      {position : Nat} {x : Ref α} {l : Location} {r : Register}
      (harg : args[position]? = some (.var x)) (hr : Register.arguments[position]? = some r)
      (hl : m.location? x.name = some l) :
      Written m kept (.call dest callee args note) (.assign (.register r) (fromLocation l))
  | passLiteral {dest : Option (Ref α)} {callee : Callee α} {args : List (Operand α)} {note : α}
      {position : Nat} {arg : Operand α} {v : Value} {r : Register}
      (harg : args[position]? = some arg) (hr : Register.arguments[position]? = some r)
      (hv : literal arg = .inr v) :
      Written m kept (.call dest callee args note) (.assign (.register r) (.value v))
  | passSlot {dest : Option (Ref α)} {callee : Callee α} {args : List (Operand α)} {note : α}
      {position : Nat} {arg : Operand α} {v : Value} (harg : args[position]? = some arg)
      (hr : Register.arguments[position]? = none) (hv : Becomes m arg v) :
      Written m kept (.call dest callee args note)
        (.assign (.outSlot (position - argumentCount)) (.value v))
  | callLabel {dest : Option (Ref α)} {f : Ref α} {args : List (Operand α)} {note : α} :
      Written m kept (.call dest (.label f) args note) (.call (.label f.name))
  | callVar {dest : Option (Ref α)} {x : Ref α} {args : List (Operand α)} {note : α}
      {r : Register} (hr : Stands m x.name r) :
      Written m kept (.call dest (.var x) args note) (.call (.register r))
  | result {x : Ref α} {callee : Callee α} {args : List (Operand α)} {note : α} {r : Register}
      (hr : Stands m x.name r) :
      Written m kept (.call (some x) callee args note)
        (.assign (.register r) (.value (.register .result)))
  | restore {dest : Option (Ref α)} {callee : Callee α} {args : List (Operand α)} {note : α}
      {j : Nat} {r : Register} (hj : kept[j]? = some r) :
      Written m kept (.call dest callee args note)
        (.assign (.register r) (.localSlot (m.slotCount + j)))
  | apply {op : String} {args : List (Operand α)} {note : α} {vs : List Value}
      (hvs : List.Forall₂ (Becomes m) args vs) :
      Written m kept (.apply none op args note) (.apply op vs)
  | applyTo {x : Ref α} {op : String} {args : List (Operand α)} {note : α} {r : Register}
      {vs : List Value} (hr : Stands m x.name r) (hvs : List.Forall₂ (Becomes m) args vs) :
      Written m kept (.apply (some x) op args note) (.assign (.register r) (.apply op vs))
  | store {dest : Address α} {source : Operand α} {note : α} {r : Register} {v : Value}
      (hr : Stands m dest.base.name r) (hv : Becomes m source v) :
      Written m kept (.store dest source note) (.assign (.memory r dest.offset) (.value v))
  | load {dest : Ref α} {source : Address α} {note : α} {r q : Register}
      (hr : Stands m dest.name r) (hq : Stands m source.base.name q) :
      Written m kept (.load dest source note) (.assign (.register r) (.memory q source.offset))
  | branch {test : Operand α} {positive : Bool} {target : Ref α} {note : α} {v : Value}
      (hv : Becomes m test v) :
      Written m kept (.branch test positive target note) (.branch positive v target.name)
  | goto {target : Ref α} {note : α} : Written m kept (.goto target note) (.goto target.name)
  | value {o : Operand α} {note : α} {v : Value} (hv : Becomes m o v) :
      Written m kept (.ret (some o) note) (.assign (.register .result) (.value v))
  | unsave {result : Option (Operand α)} {note : α} {j : Nat} {r : Register}
      (hj : m.calleeSaved[j]? = some r) :
      Written m kept (.ret result note) (.assign (.register r) (.localSlot j))
  | ret {result : Option (Operand α)} {note : α} : Written m kept (.ret result note) .ret

/-- The lines of an instruction hold no label. -/
theorem Written.ne_label {α : Type} {m : Allocation} {kept : List Register} {i : Instr α}
    {l : Line} (h : Written m kept i l) (name : String) : l ≠ .label name := by
  rintro rfl
  cases h

/-- What is written for each register from the base on. -/
theorem mem_map_zipIdx {base : Nat} {rs : List Register} {f : Register × Nat → Line} {l : Line} :
    l ∈ (rs.zipIdx base).map f ↔ ∃ j r, rs[j]? = some r ∧ l = f (r, base + j) := by
  rw [List.mem_map]
  constructor
  · rintro ⟨⟨r, k⟩, hmem, rfl⟩
    obtain ⟨hle, hget⟩ := List.mem_zipIdx_iff_le_and_getElem?_sub.mp hmem
    exact ⟨k - base, r, hget, by rw [Nat.add_sub_of_le hle]⟩
  · rintro ⟨j, r, hget, rfl⟩
    refine ⟨(r, base + j), List.mem_zipIdx_iff_le_and_getElem?_sub.mpr ⟨by omega, ?_⟩, rfl⟩
    rwa [Nat.add_sub_cancel_left]

theorem mem_saveLines {base : Nat} {rs : List Register} {l : Line} :
    l ∈ saveLines base rs ↔
      ∃ j r, rs[j]? = some r ∧ l = .assign (.localSlot (base + j)) (.value (.register r)) :=
  mem_map_zipIdx

theorem mem_restoreLines {base : Nat} {rs : List Register} {l : Line} :
    l ∈ restoreLines base rs ↔
      ∃ j r, rs[j]? = some r ∧ l = .assign (.register r) (.localSlot (base + j)) :=
  mem_map_zipIdx

section Instructions

variable {α : Type} {m : Allocation} {kept : List Register}

theorem fetches_uses {i : Instr α} {xs : List String} (h : xs ⊆ i.uses) :
    Fetches m (Written m kept i) xs :=
  fun _ hx _ _ hk hr => .fetch (.inl (h hx)) hk hr

theorem fetches_dest {i : Instr α} {x : String} (h : x ∈ i.defs) :
    Fetches m (Written m kept i) [x] :=
  fun _ hy _ _ hk hr => .fetch (.inr (List.mem_singleton.mp hy ▸ h)) hk hr

theorem putsBack_dest {i : Instr α} {x : String} (h : x ∈ i.defs) :
    PutsBack m (Written m kept i) x :=
  fun _ _ hk hr => .putBack h hk hr

theorem keeps_passArgs {dest : Option (Ref α)} {callee : Callee α} {args rest : List (Operand α)}
    {note : α} {position : Nat} (hrest : args.drop position = rest) :
    Keeps (Written m kept (.call dest callee args note)) (fun _ => True)
      (passArgs m position rest) := by
  induction rest generalizing position with
  | nil => exact keeps_pure trivial
  | cons arg rest ih =>
    have harg : args[position]? = some arg := by
      rw [← List.head?_drop, hrest]
      rfl
    have hvars : arg.vars ⊆ (Instr.call dest callee args note).uses := by
      intro x hx
      refine Names.mem_ofList.mpr (List.mem_append_right _ (List.mem_flatMap.mpr ⟨arg, ?_, hx⟩))
      exact List.mem_of_getElem? harg
    refine keeps_then ?_ (ih (by rw [← List.drop_drop, hrest, List.drop_one, List.tail_cons]))
    unfold passArg
    split
    · rename_i r x hr hx
      cases arg <;> cases hx
      exact keeps_bind (keeps_location x) fun l hl => keeps_assign (.passVar harg hr hl)
    · exact keeps_assign (.passLiteral harg ‹_› ‹_›)
    · rename_i x hr hx
      cases arg <;> cases hx
      refine keeps_bind (keeps_load (fetches_uses hvars)) fun r hx => ?_
      exact keeps_then (keeps_assign (.passSlot harg hr (.var hx))) (keeps_giveBack r)
    · exact keeps_assign (.passSlot harg ‹_› (.literal ‹_›))

theorem keeps_transfer {dest : Option (Ref α)} {callee : Callee α} {args : List (Operand α)}
    {note : α} :
    Keeps (Written m kept (.call dest callee args note)) (fun _ => True) (transfer m callee) := by
  cases callee with
  | label f => exact keeps_line .callLabel
  | var x =>
    have hx : [x.name] ⊆ (Instr.call dest (.var x) args note).uses :=
      fun y hy => Names.mem_ofList.mpr (List.mem_append_left _ hy)
    refine keeps_bind (keeps_load (fetches_uses hx)) fun r hr => ?_
    exact keeps_then (keeps_line (.callVar hr)) (keeps_giveBack r)

/-- **The lines of an instruction.** -/
theorem keeps_instr (hm : m.WellFormed) (kept : List Register) (i : Instr α) :
    Keeps (Written m kept i) (fun _ => True) (instr m kept i) := by
  cases i with
  | assign dest source note =>
    have hdest : dest.name ∈ (Instr.assign dest source note).defs := List.mem_cons_self
    refine keeps_bind (keeps_load (fetches_dest hdest)) fun r hr => ?_
    refine keeps_bind (keeps_value (fetches_uses fun x => Names.mem_ofList.mpr)) fun v hv => ?_
    refine keeps_then (keeps_assign (.assign hr hv)) (keeps_then (keeps_drop v) ?_)
    exact keeps_then (keeps_store hm hr (putsBack_dest hdest)) (keeps_giveBack r)
  | call dest callee args note =>
    refine keeps_then (keeps_lines fun l hl => ?_) (keeps_then (keeps_passArgs (by rfl)) ?_)
    · obtain ⟨j, r, hj, rfl⟩ := mem_saveLines.mp hl
      exact .keep hj
    have hrestore : Keeps (Written m kept (.call dest callee args note)) (fun _ => True)
        (lines (restoreLines m.slotCount kept) : Gen α Unit) := by
      refine keeps_lines fun l hl => ?_
      obtain ⟨j, r, hj, rfl⟩ := mem_restoreLines.mp hl
      exact .restore hj
    cases dest with
    | none => exact keeps_then keeps_transfer hrestore
    | some x =>
      have hdest : x.name ∈ (Instr.call (some x) callee args note).defs := List.mem_cons_self
      exact keeps_then keeps_transfer (keeps_then (keeps_define hm (fetches_dest hdest)
        (putsBack_dest hdest) fun r hr => .result hr) hrestore)
  | apply dest op args note =>
    refine keeps_bind (keeps_values (fetches_uses fun x => Names.mem_ofList.mpr)) fun vs hvs => ?_
    cases dest with
    | none => exact keeps_then (keeps_line (.apply hvs)) (keeps_dropAll vs)
    | some x =>
      have hdest : x.name ∈ (Instr.apply (some x) op args note).defs := List.mem_cons_self
      exact keeps_then (keeps_define hm (fetches_dest hdest) (putsBack_dest hdest)
        fun r hr => .applyTo hr hvs) (keeps_dropAll vs)
  | store dest source note =>
    have hbase : [dest.base.name] ⊆ (Instr.store dest source note).uses := fun x hx =>
      Names.mem_ofList.mpr (List.mem_singleton.mp hx ▸ List.mem_cons_self)
    have hvars : source.vars ⊆ (Instr.store dest source note).uses := fun x hx =>
      Names.mem_ofList.mpr (List.mem_cons_of_mem _ hx)
    refine keeps_bind (keeps_load (fetches_uses hbase)) fun r hr => ?_
    refine keeps_bind (keeps_value (fetches_uses hvars)) fun v hv => ?_
    exact keeps_then (keeps_assign (.store hr hv)) (keeps_then (keeps_drop v) (keeps_giveBack r))
  | load dest source note =>
    have hdest : dest.name ∈ (Instr.load dest source note).defs := List.mem_cons_self
    refine keeps_bind (keeps_load (fetches_dest hdest)) fun r hr => ?_
    refine keeps_bind (keeps_load (fetches_uses (List.Subset.refl _))) fun q hq => ?_
    refine keeps_then (keeps_assign (.load hr hq)) (keeps_then (keeps_giveBack q) ?_)
    exact keeps_then (keeps_store hm hr (putsBack_dest hdest)) (keeps_giveBack r)
  | branch test positive target note =>
    refine keeps_bind (keeps_value (fetches_uses fun x => Names.mem_ofList.mpr)) fun v hv => ?_
    exact keeps_then (keeps_line (.branch hv)) (keeps_drop v)
  | goto target note => exact keeps_line .goto
  | ret result note =>
    have hleave : Keeps (Written m kept (.ret result note)) (fun _ => True)
        (lines (restoreLines 0 m.calleeSaved) >>= fun _ => line .ret : Gen α Unit) := by
      refine keeps_then (keeps_lines fun l hl => ?_) (keeps_line .ret)
      obtain ⟨j, r, hj, rfl⟩ := mem_restoreLines.mp hl
      rw [Nat.zero_add]
      exact .unsave hj
    cases result with
    | none => exact hleave
    | some o =>
      have hvars : o.vars ⊆ (Instr.ret (some o) note).uses := by
        intro x hx
        refine Names.mem_ofList.mpr ?_
        simpa using hx
      refine keeps_bind (keeps_value (fetches_uses hvars)) fun v hv => ?_
      exact keeps_then (keeps_assign (.value hv)) (keeps_then (keeps_drop v) hleave)

end Instructions

/-! ### On entry -/

/-- The lines that bring parameters to their places. -/
inductive Arriving {α : Type} (m : Allocation) (xs : List (Ref α)) : Line → Prop where
  /-- A parameter that travels in a register. -/
  | fromRegister {position : Nat} {x : Ref α} {l : Location} {r : Register}
      (hx : xs[position]? = some x) (hr : Register.arguments[position]? = some r)
      (hl : m.location? x.name = some l) :
      Arriving m xs (.assign (toLocation l) (.value (.register r)))
  /-- A parameter that travels in a slot. -/
  | fromSlot {position : Nat} {x : Ref α} {r : Register} (hx : xs[position]? = some x)
      (hposition : Register.arguments[position]? = none) (hr : Stands m x.name r) :
      Arriving m xs (.assign (.register r) (.inSlot (position - argumentCount)))
  /-- A parameter that travels in a slot and lives in another. -/
  | toSlot {position : Nat} {x : Ref α} {k : Nat} {r : Register} (hx : xs[position]? = some x)
      (hk : m.location? x.name = some (.slot k)) (hr : r ∈ Register.scratches) :
      Arriving m xs (.assign (.localSlot k) (.value (.register r)))

theorem keeps_params {α : Type} {m : Allocation} {live : Liveness} {xs rest : List (Ref α)}
    {position : Nat} (hrest : xs.drop position = rest) :
    Keeps (Arriving m xs) (fun _ => True) (params m live position rest) := by
  induction rest generalizing position with
  | nil => exact keeps_pure trivial
  | cons x rest ih =>
    have hx : xs[position]? = some x := by
      rw [← List.head?_drop, hrest]
      rfl
    refine keeps_then ?_ (ih (by rw [← List.drop_drop, hrest, List.drop_one, List.tail_cons]))
    unfold param
    split
    · split
      · exact keeps_pure trivial
      · exact keeps_assign (.fromRegister hx ‹_› ‹_›)
      · exact keeps_assign (.fromSlot hx ‹_› ⟨_, ‹_›, .inl rfl⟩)
      · rename_i k hl hposition
        refine keeps_bind keeps_acquire fun r hr => ?_
        refine keeps_then (keeps_assign (.fromSlot hx hposition ⟨_, hl, .inr ⟨hr, k, rfl⟩⟩)) ?_
        exact keeps_then (keeps_assign (.toSlot hx hl hr)) (keeps_release r)
    · exact keeps_pure trivial

end Emit

end Vapor
