/-
Vapor/Proofs/Emission/Reserved.lean

No value travels from one instruction to the next in a scratch register, in the register
for results or in an argument register (`reserved_registers_local`).  Within the lines of an
instruction a scratch register is read only after it has been written there, with no call in
between, and what is read for an operand in a slot is what was last loaded from that slot.
Results are read behind the call that brings them, and arguments in the prologue only.

The property of a line depends on the lines before it in its group (`Orderly`), so that a
group is gone through from its beginning (`Follows`).  Operands are loaded one after the
other into registers that are free, so that a load never overwrites what was loaded before
and is still held (`Held.fetching`).
-/
import Vapor.Proofs.Emission.Preservation

namespace Vapor

namespace Machine

/-! ### Registers that are read -/

def Value.reads : Value → List Register
  | .register r => [r]
  | _ => []

def Source.reads : Source → List Register
  | .value v => v.reads
  | .memory base _ => [base]
  | .apply _ vs => vs.flatMap Value.reads
  | _ => []

def Dest.reads : Dest → List Register
  | .memory base _ => [base]
  | _ => []

/-- The registers that a line reads. -/
def Line.reads : Line → List Register
  | .assign dest source => dest.reads ++ source.reads
  | .apply _ vs => vs.flatMap Value.reads
  | .call (.register r) => [r]
  | .branch _ v _ => v.reads
  | _ => []

def Line.isCall : Line → Bool
  | .call _ => true
  | _ => false

theorem Value.eq_of_mem_reads {v : Value} {r : Register} (h : r ∈ v.reads) : v = .register r := by
  cases v with
  | register q => rw [List.mem_singleton.mp h]
  | int | label | text => cases h

/-- The last of the lines that writes the register, with no call behind it. -/
def LastWrite (r : Register) (before : List Line) (w : Line) : Prop :=
  ∃ earlier later, before = earlier ++ w :: later ∧ w.dest? = some (.register r) ∧
    ∀ l ∈ later, l.dest? ≠ some (.register r) ∧ l.isCall = false

/-- There is a call, and no line behind it writes the register for results. -/
def Returned (before : List Line) : Prop :=
  ∃ earlier target later, before = earlier ++ .call target :: later ∧
    ∀ l ∈ later, l.dest? ≠ some (.register .result)

variable {r : Register} {before ls : List Line} {w l : Line}

theorem lastWrite_concat (h : w.dest? = some (.register r)) : LastWrite r (before ++ [w]) w :=
  ⟨before, [], rfl, h, fun l hl => by cases hl⟩

theorem LastWrite.append (h : LastWrite r before w)
    (hls : ∀ l ∈ ls, l.dest? ≠ some (.register r) ∧ l.isCall = false) :
    LastWrite r (before ++ ls) w := by
  obtain ⟨earlier, later, rfl, hw, hlater⟩ := h
  refine ⟨earlier, later ++ ls, by rw [List.append_assoc, List.cons_append], hw, fun l hl => ?_⟩
  rcases List.mem_append.mp hl with hl | hl
  · exact hlater l hl
  · exact hls l hl

/-! ### Lines that follow others -/

/-- Each of the lines is right where it stands, behind the lines before. -/
def Follows (D : List Line → Line → Prop) (before ls : List Line) : Prop :=
  ∀ earlier l later, ls = earlier ++ l :: later → D (before ++ earlier) l

variable {D : List Line → Line → Prop}

theorem follows_nil : Follows D before [] :=
  fun earlier l later h => by cases List.nil_eq_append_iff.mp h |>.2

theorem follows_singleton (h : D before l) : Follows D before [l] := by
  intro earlier l' later heq
  rcases List.singleton_eq_append_iff.mp heq with ⟨rfl, heq⟩ | ⟨-, heq⟩
  · obtain ⟨rfl, -⟩ := List.cons.inj heq
    rwa [List.append_nil]
  · cases heq

theorem Follows.append {ms : List Line} (hl : Follows D before ls)
    (hm : Follows D (before ++ ls) ms) : Follows D before (ls ++ ms) := by
  intro earlier l later heq
  rcases List.append_eq_append_iff.mp heq with ⟨rest, rfl, hms⟩ | ⟨rest, hls, hrest⟩
  · rw [← List.append_assoc]
    exact hm rest l later hms
  · cases rest with
    | nil =>
      rw [List.append_nil] at hls
      subst hls
      have h := hm [] l later hrest.symm
      rwa [List.append_nil] at h
    | cons l' rest =>
      obtain ⟨rfl, -⟩ := List.cons.inj hrest
      exact hl earlier l rest hls

/-- Lines that are right everywhere. -/
theorem follows_of_forall (h : ∀ l ∈ ls, ∀ before, D before l) : Follows D before ls := by
  rintro earlier l later rfl
  exact h l (List.mem_append_right _ List.mem_cons_self) _

end Machine

namespace Emit

open Machine

variable {α : Type} {m : Allocation} {live : Liveness} {i : Instr α} {pool pool' : Pool}
  {before ls : List Line} {o : Operand α} {v : Value} {r : Register} {l : Line}

/-! ### The order of reads and writes -/

/-- The operands that a line of an instruction reads, each with the value that stands for
it.  Arguments that travel in registers are passed directly from their places. -/
def operandReads : Instr α → Line → List (Operand α × Value)
  | .assign _ source _, .assign (.register _) (.value v) => [(source, v)]
  | .call _ (.var x) _ _, .call (.register r) => [(.var x, .register r)]
  | .call _ _ args _, .assign (.outSlot k) (.value v) =>
    (args[argumentCount + k]?).toList.map fun arg => (arg, v)
  | .apply _ _ args _, .apply _ vs => args.zip vs
  | .apply _ _ args _, .assign (.register _) (.apply _ vs) => args.zip vs
  | .store dest source _, .assign (.memory base _) (.value v) =>
    [(.var dest.base, .register base), (source, v)]
  | .load _ source _, .assign (.register _) (.memory base _) =>
    [(.var source.base, .register base)]
  | .branch test _ _ _, .branch _ v _ => [(test, v)]
  | .ret (some result) _, .assign (.register _) (.value v) => [(result, v)]
  | _, _ => []

/-- The value stands for the operand: a variable in a register is read there, and one in a
slot is read from a scratch register, which was last loaded from that slot. -/
inductive ReadAs (m : Allocation) (before : List Line) : Operand α → Value → Prop where
  | literal {o : Operand α} {v : Value} (h : literal o = .inr v) : ReadAs m before o v
  | register {x : Ref α} {r : Register} (h : m.location? x.name = some (.register r)) :
      ReadAs m before (.var x) (.register r)
  | slot {x : Ref α} {k : Nat} {r : Register} (h : m.location? x.name = some (.slot k))
      (hr : r ∈ Register.scratches)
      (hw : LastWrite r before (.assign (.register r) (.localSlot k))) :
      ReadAs m before (.var x) (.register r)

/-- A line of an instruction, behind other lines of it, respects the reserved registers.
Scratch registers are read for operands, or to bring a variable to its slot. -/
structure Orderly (m : Allocation) (i : Instr α) (before : List Line) (l : Line) : Prop where
  scratch : ∀ r ∈ l.reads, r ∈ Register.scratches → ∃ w, LastWrite r before w
  purpose : ∀ r ∈ l.reads, r ∈ Register.scratches →
    (∃ o, (o, .register r) ∈ operandReads i l) ∨
      ∃ k, l = .assign (.localSlot k) (.value (.register r))
  operands : ∀ o v, (o, v) ∈ operandReads i l → ReadAs m before o v
  result : .result ∈ l.reads → i.isCall = true ∧ Returned before
  arguments : ∀ r ∈ l.reads, r ∉ Register.arguments

/-- A line of the prologue, behind other lines of it, respects the reserved registers. -/
structure Entering (before : List Line) (l : Line) : Prop where
  scratch : ∀ r ∈ l.reads, r ∈ Register.scratches → ∃ w, LastWrite r before w
  result : .result ∉ l.reads
  arguments : ∀ r ∈ l.reads, r ∈ Register.arguments →
    ∀ l' ∈ before, l'.dest? ≠ some (.register r)

/-- The register may be read behind these lines. -/
structure Readable (before : List Line) (r : Register) : Prop where
  scratch : r ∈ Register.scratches → ∃ w, LastWrite r before w
  result : r ≠ .result
  arguments : r ∉ Register.arguments

theorem readable_of_isAllocatable (h : r.isAllocatable = true) : Readable before r where
  scratch hr := absurd hr (Register.not_mem_scratches h)
  result := by rintro rfl; cases h
  arguments := Register.not_mem_arguments h

theorem readable_of_lastWrite (hr : r ∈ Register.scratches) {w : Line}
    (h : LastWrite r before w) : Readable before r where
  scratch _ := ⟨w, h⟩
  result := by rintro rfl; revert hr; decide
  arguments harg := Register.not_mem_scratches_of_argument harg hr

theorem ReadAs.readable (hm : m.WellFormed) (h : ReadAs m before o v) :
    ∀ r ∈ v.reads, Readable before r := by
  cases h with
  | literal h =>
    cases o with
    | var => cases h
    | int | text | label =>
      obtain rfl := Sum.inr.inj h
      exact fun r hr => by cases hr
  | register h =>
    intro r hr
    rw [List.mem_singleton.mp hr]
    exact readable_of_isAllocatable (hm.isAllocatable h)
  | slot h hr hw =>
    intro r' hr'
    rw [List.mem_singleton.mp hr']
    exact readable_of_lastWrite hr hw

theorem orderly_of_readable (hreads : ∀ r ∈ l.reads, Readable before r)
    (hpurpose : ∀ r ∈ l.reads, r ∈ Register.scratches →
      (∃ o, (o, .register r) ∈ operandReads i l) ∨
        ∃ k, l = .assign (.localSlot k) (.value (.register r)))
    (hoperands : ∀ o v, (o, v) ∈ operandReads i l → ReadAs m before o v) :
    Orderly m i before l where
  scratch r hr := (hreads r hr).scratch
  purpose := hpurpose
  operands := hoperands
  result hr := absurd rfl (hreads _ hr).result
  arguments r hr := (hreads r hr).arguments

/-- A line that reads registers for operands only. -/
theorem orderly_of_operands (hm : m.WellFormed)
    (hreads : ∀ r ∈ l.reads, ∃ o, (o, .register r) ∈ operandReads i l)
    (hoperands : ∀ o v, (o, v) ∈ operandReads i l → ReadAs m before o v) :
    Orderly m i before l := by
  refine orderly_of_readable (fun r hr => ?_) (fun r hr _ => .inl (hreads r hr)) hoperands
  obtain ⟨o, ho⟩ := hreads r hr
  exact (hoperands o _ ho).readable hm r List.mem_cons_self

/-- A line that reads a single operand. -/
theorem orderly_of_readAs (hm : m.WellFormed) (h : ReadAs m before o v)
    (hreads : l.reads = v.reads) (hoperands : operandReads i l = [(o, v)]) :
    Orderly m i before l := by
  refine orderly_of_operands hm (fun r hr => ⟨o, ?_⟩) fun o' v' hmem => ?_
  · rw [hreads] at hr
    rw [hoperands, Value.eq_of_mem_reads hr]
    exact List.mem_cons_self
  · rw [hoperands] at hmem
    obtain ⟨rfl, rfl⟩ := Prod.mk.inj (List.mem_singleton.mp hmem)
    exact h

/-- A line that reads no operand, and registers of variables at most. -/
theorem orderly_of_isAllocatable (hreads : ∀ r ∈ l.reads, r.isAllocatable = true)
    (hoperands : operandReads i l = []) : Orderly m i before l := by
  refine orderly_of_readable (fun r hr => readable_of_isAllocatable (hreads r hr))
    (fun r hr hscratch => absurd hscratch (Register.not_mem_scratches (hreads r hr))) ?_
  rw [hoperands]
  exact fun o v h => by cases h

theorem orderly_of_reads_eq_nil (hreads : l.reads = []) (hoperands : operandReads i l = []) :
    Orderly m i before l := by
  refine orderly_of_isAllocatable (fun r hr => ?_) hoperands
  rw [hreads] at hr
  cases hr

theorem operandReads_fromSlot {k : Nat} :
    operandReads i (.assign (.register r) (.localSlot k)) = [] := by
  cases i with
  | ret result => cases result <;> rfl
  | call _ callee => cases callee <;> rfl
  | assign | apply | store | load | branch | goto => rfl

theorem operandReads_toSlot {k : Nat} {source : Source} :
    operandReads i (.assign (.localSlot k) source) = [] := by
  cases i with
  | ret result => cases result <;> cases source <;> rfl
  | call _ callee => cases callee <;> cases source <;> rfl
  | assign | apply | store | load | branch | goto => cases source <;> rfl

theorem orderly_fromSlot {k : Nat} : Orderly m i before (.assign (.register r) (.localSlot k)) :=
  orderly_of_reads_eq_nil rfl operandReads_fromSlot

theorem orderly_toSlot {k : Nat} (h : Readable before r) :
    Orderly m i before (.assign (.localSlot k) (.value (.register r))) := by
  refine orderly_of_readable (fun q hq => List.mem_singleton.mp hq ▸ h) (fun q hq _ => ?_) ?_
  · rw [List.mem_singleton.mp hq]
    exact .inr ⟨k, rfl⟩
  · rw [operandReads_toSlot]
    exact fun o v hv => by cases hv

/-! ### Loading operands -/

/-- Lines that load from slots, each into a register that was free and no longer is. -/
structure Fetching (pool : Pool) (ls : List Line) (pool' : Pool) : Prop where
  ready : pool'.Ready
  free : pool'.free ⊆ pool.free
  lines : ∀ l ∈ ls, ∃ r k, r ∈ pool.free ∧ r ∉ pool'.free ∧
    l = .assign (.register r) (.localSlot k)

theorem Fetching.trans {pool₁ : Pool} {ms : List Line} (h : Fetching pool ls pool₁)
    (h' : Fetching pool₁ ms pool') : Fetching pool (ls ++ ms) pool' where
  ready := h'.ready
  free _ hr := h.free (h'.free hr)
  lines l hl := by
    rcases List.mem_append.mp hl with hl | hl
    · obtain ⟨r, k, hr, hr', heq⟩ := h.lines l hl
      exact ⟨r, k, hr, fun hmem => hr' (h'.free hmem), heq⟩
    · obtain ⟨r, k, hr, hr', heq⟩ := h'.lines l hl
      exact ⟨r, k, h.free hr, hr', heq⟩

theorem fetching_nil (hpool : pool.Ready) : Fetching pool [] pool :=
  ⟨hpool, List.Subset.refl _, fun l hl => by cases hl⟩

theorem Fetching.follows (h : Fetching pool ls pool') : Follows (Orderly m i) before ls := by
  refine follows_of_forall fun l hl before => ?_
  obtain ⟨r, k, -, -, rfl⟩ := h.lines l hl
  exact orderly_fromSlot

/-- Registers that are not free are not written, and nothing is called. -/
theorem Fetching.leaves (h : Fetching pool ls pool') (hr : r ∉ pool.free) :
    ∀ l ∈ ls, l.dest? ≠ some (.register r) ∧ l.isCall = false := by
  intro l hl
  obtain ⟨q, k, hq, -, rfl⟩ := h.lines l hl
  refine ⟨fun heq => hr ?_, rfl⟩
  obtain rfl := Dest.register.inj (Option.some.inj heq)
  exact hq

/-- The value stands for the operand, and its register is not free. -/
structure Held (m : Allocation) (before : List Line) (pool : Pool) (o : Operand α)
    (v : Value) : Prop where
  readAs : ReadAs m before o v
  inUse : ∀ r ∈ v.reads, r ∉ pool.free

/-- Loading an operand leaves those that are held. -/
theorem Held.fetching (h : Held m before pool o v) (hf : Fetching pool ls pool') :
    Held m (before ++ ls) pool' o v where
  readAs := by
    cases h.readAs with
    | literal hv => exact .literal hv
    | register hl => exact .register hl
    | slot hl hr hw =>
      -- what is loaded goes to registers that are free, and this one is not
      exact .slot hl hr (hw.append (hf.leaves (h.inUse _ List.mem_cons_self)))
  inUse r hr hmem := h.inUse r hr (hf.free hmem)

theorem load_held (hm : m.WellFormed) (hpool : pool.Ready) {x : Ref α}
    (h : (load m x).Gives pool ls pool' r) :
    Fetching pool ls pool' ∧ ∀ before, Held m (before ++ ls) pool' (.var x) (.register r) := by
  rcases gives_load.mp h with ⟨hl, rfl, rfl⟩ | ⟨k, hl, hacq, rfl⟩
  · refine ⟨fetching_nil hpool, fun before => ⟨.register hl, fun q hq hmem => ?_⟩⟩
    rw [List.mem_singleton.mp hq] at hmem
    exact Register.not_mem_scratches (hm.isAllocatable hl) (hpool.mem_scratches hmem)
  · obtain ⟨hfree, -⟩ := Pool.acquire_eq_ok.mp hacq
    have hr : r ∈ pool.free := hfree ▸ List.mem_cons_self
    have hr' : r ∉ pool'.free := by
      have hnodup := hpool.tidy.nodup_free
      rw [hfree] at hnodup
      exact (List.nodup_cons.mp hnodup).1
    refine ⟨⟨hpool.acquire hacq, hfree ▸ List.subset_cons_self r _, fun l hl => ?_⟩,
      fun before => ⟨.slot hl (hpool.mem_scratches hr) (lastWrite_concat rfl), fun q hq => ?_⟩⟩
    · exact ⟨r, k, hr, hr', List.mem_singleton.mp hl⟩
    · rwa [List.mem_singleton.mp hq]

theorem value_held (hm : m.WellFormed) (hpool : pool.Ready)
    (h : (value m o).Gives pool ls pool' v) :
    Fetching pool ls pool' ∧ ∀ before, Held m (before ++ ls) pool' o v := by
  unfold value at h
  split at h
  · rename_i x hx
    cases o <;> cases hx
    obtain ⟨r, _, ls₁, _, h₁, h₂, rfl⟩ := gives_bind.mp h
    obtain ⟨rfl, rfl, rfl⟩ := gives_pure.mp h₂
    rw [List.append_nil]
    exact load_held hm hpool h₁
  · rename_i v' hv
    obtain ⟨rfl, rfl, rfl⟩ := gives_pure.mp h
    refine ⟨fetching_nil hpool, fun before => ⟨.literal hv, fun r hr => ?_⟩⟩
    cases o <;> cases hv <;> cases hr

theorem values_held (hm : m.WellFormed) (hpool : pool.Ready) {os : List (Operand α)}
    {vs : List Value} (h : (values m os).Gives pool ls pool' vs) :
    Fetching pool ls pool' ∧ ∀ before, List.Forall₂ (Held m (before ++ ls) pool') os vs := by
  induction os generalizing pool ls vs with
  | nil =>
    obtain ⟨rfl, rfl, rfl⟩ := gives_pure.mp h
    exact ⟨fetching_nil hpool, fun _ => .nil⟩
  | cons o os ih =>
    obtain ⟨v, pool₁, ls₁, _, h₁, h₂, rfl⟩ := gives_bind.mp h
    obtain ⟨vs', _, ls₂, _, h₃, h₄, rfl⟩ := gives_bind.mp h₂
    obtain ⟨rfl, rfl, rfl⟩ := gives_pure.mp h₄
    rw [List.append_nil]
    obtain ⟨hf, hv⟩ := value_held hm hpool h₁
    obtain ⟨hf', hvs⟩ := ih hf.ready h₃
    refine ⟨hf.trans hf', fun before => ?_⟩
    rw [← List.append_assoc]
    exact .cons ((hv before).fetching hf') (hvs (before ++ ls₁))

/-! ### Writing variables -/

/-- A register that holds a variable within an instruction: its own, or a scratch register. -/
theorem Held.own_or_scratch (hm : m.WellFormed) {x : Ref α}
    (h : Held m before pool (.var x) (.register r)) :
    r.isAllocatable = true ∨ r ∈ Register.scratches := by
  cases h.readAs with
  | literal h => cases h
  | register h => exact .inl (hm.isAllocatable h)
  | slot _ hr => exact .inr hr

/-- A variable that has just been written is brought to its slot. -/
theorem store_follows {x : Ref α} (hr : r.isAllocatable = true ∨ r ∈ Register.scratches)
    {source : Source} {b : Unit} (h : (store m r x).Gives pool ls pool' b) :
    Follows (Orderly m i) (before ++ [.assign (.register r) source]) ls ∧ pool' = pool := by
  obtain ⟨rfl, rfl⟩ := gives_store.mp h
  refine ⟨?_, rfl⟩
  cases m.slot? x.name with
  | none => exact follows_nil
  | some k =>
    refine follows_singleton (orderly_toSlot ?_)
    rcases hr with hr | hr
    · exact readable_of_isAllocatable hr
    · exact readable_of_lastWrite hr (lastWrite_concat rfl)

/-- The lines that set a variable are orderly if the one that sets it is, behind lines that
may load the variable. -/
theorem define_follows (hm : m.WellFormed) (hpool : pool.Ready) {x : Ref α} {source : Source}
    {b : Unit} (h : (define m x source).Gives pool ls pool' b)
    (hset : ∀ ls₁ pool₁ r, Fetching pool ls₁ pool₁ →
      Orderly m i (before ++ ls₁) (.assign (.register r) source)) :
    Follows (Orderly m i) before ls ∧ pool'.Ready := by
  unfold define at h
  obtain ⟨r, pool₁, ls₁, _, h₁, h₂, rfl⟩ := gives_bind.mp h
  obtain ⟨_, _, _, _, h₃, h₄, rfl⟩ := gives_bind.mp h₂
  obtain ⟨rfl, rfl⟩ := gives_assign.mp h₃
  obtain ⟨_, _, ls₂, _, h₅, h₆, rfl⟩ := gives_bind.mp h₄
  obtain ⟨hf, hheld⟩ := load_held hm hpool h₁
  obtain ⟨hback, rfl⟩ := store_follows ((hheld before).own_or_scratch hm) h₅
  obtain ⟨rfl, hready⟩ := giveBack_spec hf.ready h₆
  rw [List.append_nil]
  exact ⟨hf.follows.append ((follows_singleton (hset ls₁ _ r hf)).append hback), hready⟩

/-! ### Calls -/

theorem saveLines_follows {base : Nat} {rs : List Register}
    (h : ∀ r ∈ rs, r.isAllocatable = true) :
    Follows (Orderly m i) before (saveLines base rs) := by
  refine follows_of_forall fun l hl before => ?_
  obtain ⟨j, r, hj, rfl⟩ := mem_saveLines.mp hl
  exact orderly_toSlot (readable_of_isAllocatable (h r (List.mem_of_getElem? hj)))

theorem restoreLines_follows {base : Nat} {rs : List Register} :
    Follows (Orderly m i) before (restoreLines base rs) := by
  refine follows_of_forall fun l hl before => ?_
  obtain ⟨j, r, -, rfl⟩ := mem_restoreLines.mp hl
  exact orderly_fromSlot

section Calls

variable {dest : Option (Ref α)} {callee : Callee α} {args : List (Operand α)} {note : α}

theorem operandReads_call_register {q : Register} {source : Source} :
    operandReads (.call dest callee args note) (.assign (.register q) source) = [] := by
  cases callee <;> cases source <;> rfl

theorem operandReads_call_outSlot {position : Nat}
    (hposition : Register.arguments[position]? = none) (harg : args[position]? = some o) :
    operandReads (.call dest callee args note)
      (.assign (.outSlot (position - argumentCount)) (.value v)) = [(o, v)] := by
  have hle : argumentCount ≤ position := List.getElem?_eq_none_iff.mp hposition
  have hargs : args[argumentCount + (position - argumentCount)]? = some o := by
    rwa [Nat.add_sub_of_le hle]
  cases callee with
  | var | label =>
    simp only [operandReads, hargs, Option.toList_some, List.map_cons, List.map_nil]

theorem passArg_follows (hm : m.WellFormed) (hpool : pool.Ready) {position : Nat}
    (harg : args[position]? = some o) {b : Unit}
    (h : (passArg m position o).Gives pool ls pool' b) :
    Follows (Orderly m (.call dest callee args note)) before ls ∧ pool'.Ready := by
  unfold passArg at h
  split at h
  · rename_i r x hr hx
    obtain ⟨place, _, _, _, h₁, h₂, rfl⟩ := gives_bind.mp h
    obtain ⟨hl, rfl, rfl⟩ := gives_location.mp h₁
    obtain ⟨rfl, rfl⟩ := gives_assign.mp h₂
    refine ⟨follows_singleton (orderly_of_isAllocatable (fun q hq => ?_)
      operandReads_call_register), hpool⟩
    cases place with
    | register p =>
      rw [List.mem_singleton.mp hq]
      exact hm.isAllocatable hl
    | slot => cases hq
  · rename_i r v hr hv
    obtain ⟨rfl, rfl⟩ := gives_assign.mp h
    refine ⟨follows_singleton (orderly_of_reads_eq_nil ?_ operandReads_call_register), hpool⟩
    cases o <;> cases hv <;> rfl
  · rename_i x hr hx
    cases o <;> cases hx
    obtain ⟨r, _, ls₁, _, h₁, h₂, rfl⟩ := gives_bind.mp h
    obtain ⟨_, _, _, _, h₃, h₄, rfl⟩ := gives_bind.mp h₂
    obtain ⟨rfl, rfl⟩ := gives_assign.mp h₃
    obtain ⟨hf, hheld⟩ := load_held hm hpool h₁
    obtain ⟨rfl, hready⟩ := giveBack_spec hf.ready h₄
    exact ⟨hf.follows.append (follows_singleton (orderly_of_readAs hm (hheld before).readAs rfl
      (operandReads_call_outSlot hr harg))), hready⟩
  · rename_i v hr hv
    obtain ⟨rfl, rfl⟩ := gives_assign.mp h
    exact ⟨follows_singleton (orderly_of_readAs hm (.literal hv) rfl
      (operandReads_call_outSlot hr harg)), hpool⟩

theorem passArgs_follows (hm : m.WellFormed) (hpool : pool.Ready) {position : Nat}
    {rest : List (Operand α)} (hrest : args.drop position = rest) {b : Unit}
    (h : (passArgs m position rest).Gives pool ls pool' b) :
    Follows (Orderly m (.call dest callee args note)) before ls ∧ pool'.Ready := by
  induction rest generalizing position pool before ls with
  | nil =>
    obtain ⟨rfl, rfl, -⟩ := gives_pure.mp h
    exact ⟨follows_nil, hpool⟩
  | cons arg rest ih =>
    obtain ⟨_, _, _, _, h₁, h₂, rfl⟩ := gives_bind.mp h
    have harg : args[position]? = some arg := by
      rw [← List.head?_drop, hrest]
      rfl
    obtain ⟨hfirst, hready⟩ := passArg_follows hm hpool harg h₁
    obtain ⟨hothers, hready'⟩ :=
      ih hready (by rw [← List.drop_drop, hrest, List.drop_one, List.tail_cons]) h₂
    exact ⟨hfirst.append hothers, hready'⟩

/-- The last of the lines is the call. -/
theorem transfer_follows (hm : m.WellFormed) (hpool : pool.Ready) {b : Unit}
    (h : (transfer m callee).Gives pool ls pool' b) :
    Follows (Orderly m (.call dest callee args note)) before ls ∧ pool'.Ready ∧
      ∃ earlier target, ls = earlier ++ [.call target] := by
  cases callee with
  | label f =>
    obtain ⟨rfl, rfl⟩ := gives_line.mp h
    exact ⟨follows_singleton (orderly_of_reads_eq_nil rfl rfl), hpool, [], _, rfl⟩
  | var x =>
    obtain ⟨r, _, ls₁, _, h₁, h₂, rfl⟩ := gives_bind.mp h
    obtain ⟨_, _, _, _, h₃, h₄, rfl⟩ := gives_bind.mp h₂
    obtain ⟨rfl, rfl⟩ := gives_line.mp h₃
    obtain ⟨hf, hheld⟩ := load_held hm hpool h₁
    obtain ⟨rfl, hready⟩ := giveBack_spec hf.ready h₄
    rw [List.append_nil]
    have hread := (hheld before).readAs
    exact ⟨hf.follows.append (follows_singleton (orderly_of_readAs hm hread rfl rfl)), hready, ls₁,
      _, rfl⟩

/-- Behind a call, lines that load a variable leave the result where it is. -/
theorem orderly_result (hpool : pool.Ready) {earlier ms : List Line} {target : Target}
    (hf : Fetching pool ms pool') :
    Orderly m (.call dest callee args note) (earlier ++ [.call target] ++ ms)
      (.assign (.register r) (.value (.register .result))) where
  scratch q hq hscratch := by
    rw [List.mem_singleton.mp hq] at hscratch
    exact absurd hscratch (by decide)
  purpose q hq hscratch := by
    rw [List.mem_singleton.mp hq] at hscratch
    exact absurd hscratch (by decide)
  operands := by
    rw [operandReads_call_register]
    exact fun o v hv => by cases hv
  result _ := by
    have hresult : Register.result ∉ pool.free := fun hmem =>
      absurd (hpool.mem_scratches hmem) (by decide)
    refine ⟨rfl, earlier, target, ms, ?_, fun l hl => (hf.leaves hresult l hl).1⟩
    rw [List.append_assoc, List.singleton_append]
  arguments q hq := by
    rw [List.mem_singleton.mp hq]
    decide

end Calls

/-! ### Instructions -/

/-- An operand and what stands for it, as they are found side by side. -/
theorem readAs_of_mem_zip {os : List (Operand α)} {vs : List Value}
    (h : List.Forall₂ (Held m before pool) os vs) :
    ∀ o v, (o, v) ∈ os.zip vs → ReadAs m before o v :=
  fun _ _ hmem => ((List.forall₂_iff_zip.mp h).2 hmem).readAs

theorem exists_mem_zip {os : List (Operand α)} {vs : List Value}
    (h : List.Forall₂ (Held m before pool) os vs) :
    ∀ r ∈ vs.flatMap Value.reads, ∃ o, (o, .register r) ∈ os.zip vs := by
  induction h with
  | nil => exact fun r hr => by cases hr
  | @cons o v os vs _ _ ih =>
    intro r hr
    rw [List.flatMap_cons, List.mem_append] at hr
    rcases hr with hr | hr
    · obtain rfl := Value.eq_of_mem_reads hr
      exact ⟨o, List.mem_cons_self⟩
    · obtain ⟨o', ho'⟩ := ih r hr
      exact ⟨o', List.mem_cons_of_mem _ ho'⟩

theorem isAllocatable_of_mem_kept {index : Nat} (h : r ∈ i.kept m live index) :
    r.isAllocatable = true := by
  cases i with
  | call =>
    obtain ⟨j, -, rfl⟩ := List.mem_map.mp (List.mem_filter.mp h).1
    rfl
  | assign | apply | store | load | branch | goto | ret => cases h

theorem assign_follows (hm : m.WellFormed) (hpool : pool.Ready) {kept : List Register}
    {dest : Ref α} {source : Operand α} {note : α} {b : Unit}
    (h : (instr m kept (.assign dest source note)).Gives pool ls pool' b) :
    Follows (Orderly m (.assign dest source note)) [] ls := by
  obtain ⟨r, _, ls₁, _, h₁, h₂, rfl⟩ := gives_bind.mp h
  obtain ⟨v, _, ls₂, _, h₃, h₄, rfl⟩ := gives_bind.mp h₂
  obtain ⟨_, _, _, _, h₅, h₆, rfl⟩ := gives_bind.mp h₄
  obtain ⟨rfl, rfl⟩ := gives_assign.mp h₅
  obtain ⟨_, _, _, _, h₇, h₈, rfl⟩ := gives_bind.mp h₆
  obtain ⟨_, _, ls₃, _, h₉, h₁₀, rfl⟩ := gives_bind.mp h₈
  obtain ⟨hf, hdest⟩ := load_held hm hpool h₁
  obtain ⟨hf', hsource⟩ := value_held hm hf.ready h₃
  obtain ⟨rfl, hready⟩ := drop_spec hf'.ready h₇
  obtain ⟨hback, rfl⟩ := store_follows ((hdest []).own_or_scratch hm) h₉
  obtain ⟨rfl, -⟩ := giveBack_spec hready h₁₀
  simp only [List.nil_append, List.append_nil]
  refine hf.follows.append (hf'.follows.append ((follows_singleton ?_).append hback))
  exact orderly_of_readAs hm (hsource ([] ++ ls₁)).readAs rfl rfl

theorem call_follows (hm : m.WellFormed) (hpool : pool.Ready) {kept : List Register}
    (hkept : ∀ r ∈ kept, r.isAllocatable = true) {dest : Option (Ref α)} {callee : Callee α}
    {args : List (Operand α)} {note : α} {b : Unit}
    (h : (instr m kept (.call dest callee args note)).Gives pool ls pool' b) :
    Follows (Orderly m (.call dest callee args note)) [] ls := by
  obtain ⟨_, _, _, _, h₁, h₂, rfl⟩ := gives_bind.mp h
  obtain ⟨rfl, rfl⟩ := gives_lines.mp h₁
  obtain ⟨_, _, ls₂, _, h₃, h₄, rfl⟩ := gives_bind.mp h₂
  obtain ⟨_, _, ls₃, _, h₅, h₆, rfl⟩ := gives_bind.mp h₄
  obtain ⟨hpass, hready⟩ := passArgs_follows hm hpool (by rfl) h₃
  obtain ⟨hcall, hready', earlier, target, rfl⟩ := transfer_follows hm hready h₅
  refine (saveLines_follows hkept).append (hpass.append (hcall.append ?_))
  cases dest with
  | none =>
    obtain ⟨rfl, -⟩ := gives_lines.mp h₆
    exact restoreLines_follows
  | some x =>
    obtain ⟨_, _, ls₄, _, h₇, h₈, rfl⟩ := gives_bind.mp h₆
    obtain ⟨rfl, -⟩ := gives_lines.mp h₈
    -- between the call and the line that takes the result there are only loads
    refine (define_follows hm hready' h₇ fun ms pool₁ r hf => ?_).1.append restoreLines_follows
    rw [← List.append_assoc]
    exact orderly_result hready' hf

theorem apply_follows (hm : m.WellFormed) (hpool : pool.Ready) {kept : List Register}
    {dest : Option (Ref α)} {op : String} {args : List (Operand α)} {note : α} {b : Unit}
    (h : (instr m kept (.apply dest op args note)).Gives pool ls pool' b) :
    Follows (Orderly m (.apply dest op args note)) [] ls := by
  obtain ⟨vs, _, ls₁, _, h₁, h₂, rfl⟩ := gives_bind.mp h
  obtain ⟨hf, hheld⟩ := values_held hm hpool h₁
  refine hf.follows.append ?_
  cases dest with
  | none =>
    obtain ⟨_, _, _, _, h₃, h₄, rfl⟩ := gives_bind.mp h₂
    obtain ⟨rfl, rfl⟩ := gives_line.mp h₃
    obtain ⟨rfl, -⟩ := dropAll_spec hf.ready h₄
    exact follows_singleton (orderly_of_operands hm (exists_mem_zip (hheld []))
      (readAs_of_mem_zip (hheld [])))
  | some x =>
    obtain ⟨_, _, ls₂, _, h₃, h₄, rfl⟩ := gives_bind.mp h₂
    -- the destination may have to be loaded too, while the operands are held
    obtain ⟨hset, hready⟩ := define_follows hm hf.ready h₃ fun ms pool₁ r hf' => by
      have hheld' := (hheld []).imp fun o v hv => hv.fetching hf'
      exact orderly_of_operands (i := .apply (some x) op args note) hm
        (exists_mem_zip hheld') (readAs_of_mem_zip hheld')
    obtain ⟨rfl, -⟩ := dropAll_spec hready h₄
    exact hset.append follows_nil

theorem store_instr_follows (hm : m.WellFormed) (hpool : pool.Ready) {kept : List Register}
    {dest : Address α} {source : Operand α} {note : α} {b : Unit}
    (h : (instr m kept (.store dest source note)).Gives pool ls pool' b) :
    Follows (Orderly m (.store dest source note)) [] ls := by
  obtain ⟨r, _, ls₁, _, h₁, h₂, rfl⟩ := gives_bind.mp h
  obtain ⟨v, _, ls₂, _, h₃, h₄, rfl⟩ := gives_bind.mp h₂
  obtain ⟨_, _, _, _, h₅, h₆, rfl⟩ := gives_bind.mp h₄
  obtain ⟨rfl, rfl⟩ := gives_assign.mp h₅
  obtain ⟨_, _, _, _, h₇, h₈, rfl⟩ := gives_bind.mp h₆
  obtain ⟨hf, hbase⟩ := load_held hm hpool h₁
  obtain ⟨hf', hsource⟩ := value_held hm hf.ready h₃
  obtain ⟨rfl, hready⟩ := drop_spec hf'.ready h₇
  obtain ⟨rfl, -⟩ := giveBack_spec hready h₈
  -- the base is still held when the other operand has been loaded
  have hread := ((hbase []).fetching hf').readAs
  have hread' := (hsource ([] ++ ls₁)).readAs
  refine hf.follows.append (hf'.follows.append (follows_singleton ?_))
  refine orderly_of_operands hm (fun q hq => ?_) ?_
  · rcases List.mem_append.mp hq with hq | hq
    · obtain rfl := List.mem_singleton.mp hq
      exact ⟨.var dest.base, List.mem_cons_self⟩
    · obtain rfl := Value.eq_of_mem_reads hq
      exact ⟨source, List.mem_cons_of_mem _ List.mem_cons_self⟩
  · rintro o v hv
    rcases List.mem_cons.mp hv with hv | hv
    · obtain ⟨rfl, rfl⟩ := Prod.mk.inj hv
      exact hread
    · obtain ⟨rfl, rfl⟩ := Prod.mk.inj (List.mem_singleton.mp hv)
      exact hread'

theorem load_instr_follows (hm : m.WellFormed) (hpool : pool.Ready) {kept : List Register}
    {dest : Ref α} {source : Address α} {note : α} {b : Unit}
    (h : (instr m kept (.load dest source note)).Gives pool ls pool' b) :
    Follows (Orderly m (.load dest source note)) [] ls := by
  obtain ⟨r, _, ls₁, _, h₁, h₂, rfl⟩ := gives_bind.mp h
  obtain ⟨q, _, ls₂, _, h₃, h₄, rfl⟩ := gives_bind.mp h₂
  obtain ⟨_, _, _, _, h₅, h₆, rfl⟩ := gives_bind.mp h₄
  obtain ⟨rfl, rfl⟩ := gives_assign.mp h₅
  obtain ⟨_, _, _, _, h₇, h₈, rfl⟩ := gives_bind.mp h₆
  obtain ⟨_, _, ls₃, _, h₉, h₁₀, rfl⟩ := gives_bind.mp h₈
  obtain ⟨hf, hdest⟩ := load_held hm hpool h₁
  obtain ⟨hf', hbase⟩ := load_held hm hf.ready h₃
  obtain ⟨rfl, hready⟩ := giveBack_spec hf'.ready h₇
  obtain ⟨hback, rfl⟩ := store_follows ((hdest []).own_or_scratch hm) h₉
  obtain ⟨rfl, -⟩ := giveBack_spec hready h₁₀
  simp only [List.nil_append, List.append_nil]
  refine hf.follows.append (hf'.follows.append ((follows_singleton ?_).append hback))
  exact orderly_of_readAs hm (hbase ([] ++ ls₁)).readAs rfl rfl

theorem branch_follows (hm : m.WellFormed) (hpool : pool.Ready) {kept : List Register}
    {test : Operand α} {positive : Bool} {target : Ref α} {note : α} {b : Unit}
    (h : (instr m kept (.branch test positive target note)).Gives pool ls pool' b) :
    Follows (Orderly m (.branch test positive target note)) [] ls := by
  obtain ⟨v, _, ls₁, _, h₁, h₂, rfl⟩ := gives_bind.mp h
  obtain ⟨_, _, _, _, h₃, h₄, rfl⟩ := gives_bind.mp h₂
  obtain ⟨rfl, rfl⟩ := gives_line.mp h₃
  obtain ⟨hf, htest⟩ := value_held hm hpool h₁
  obtain ⟨rfl, -⟩ := drop_spec hf.ready h₄
  exact hf.follows.append (follows_singleton (orderly_of_readAs hm (htest []).readAs rfl rfl))

theorem ret_follows (hm : m.WellFormed) (hpool : pool.Ready) {kept : List Register}
    {result : Option (Operand α)} {note : α} {b : Unit}
    (h : (instr m kept (.ret result note)).Gives pool ls pool' b) :
    Follows (Orderly m (.ret result note)) [] ls := by
  have hleave : ∀ {pool : Pool} {before ls : List Line},
      (lines (restoreLines 0 m.calleeSaved) >>= fun _ => line .ret : Gen α Unit).Gives
        pool ls pool' b → Follows (Orderly m (.ret result note)) before ls := by
    intro pool before ls h
    obtain ⟨_, _, _, _, h₁, h₂, rfl⟩ := gives_bind.mp h
    obtain ⟨rfl, rfl⟩ := gives_lines.mp h₁
    obtain ⟨rfl, -⟩ := gives_line.mp h₂
    refine restoreLines_follows.append (follows_singleton (orderly_of_reads_eq_nil rfl ?_))
    cases result <;> rfl
  cases result with
  | none => exact hleave h
  | some o =>
    obtain ⟨v, _, ls₁, _, h₁, h₂, rfl⟩ := gives_bind.mp h
    obtain ⟨_, _, _, _, h₃, h₄, rfl⟩ := gives_bind.mp h₂
    obtain ⟨rfl, rfl⟩ := gives_assign.mp h₃
    obtain ⟨_, _, _, _, h₅, h₆, rfl⟩ := gives_bind.mp h₄
    obtain ⟨hf, hheld⟩ := value_held hm hpool h₁
    obtain ⟨rfl, -⟩ := drop_spec hf.ready h₅
    refine hf.follows.append ((follows_singleton ?_).append (hleave h₆))
    exact orderly_of_readAs hm (hheld []).readAs rfl rfl

/-- **The lines of an instruction respect the reserved registers.** -/
theorem instr_follows (hm : m.WellFormed) (hpool : pool.Ready) {kept : List Register}
    (hkept : ∀ r ∈ kept, r.isAllocatable = true) {b : Unit}
    (h : (instr m kept i).Gives pool ls pool' b) : Follows (Orderly m i) [] ls := by
  cases i with
  | assign => exact assign_follows hm hpool h
  | call => exact call_follows hm hpool hkept h
  | apply => exact apply_follows hm hpool h
  | store => exact store_instr_follows hm hpool h
  | load => exact load_instr_follows hm hpool h
  | branch => exact branch_follows hm hpool h
  | goto =>
    obtain ⟨rfl, -⟩ := gives_line.mp h
    exact follows_singleton (orderly_of_reads_eq_nil rfl rfl)
  | ret => exact ret_follows hm hpool h

/-! ### The prologue -/

/-- The lines write no argument register. -/
def Unmoved (ls : List Line) : Prop :=
  ∀ l ∈ ls, ∀ r ∈ Register.arguments, l.dest? ≠ some (.register r)

theorem unmoved_nil : Unmoved [] :=
  fun l hl => by cases hl

theorem Unmoved.append {ms : List Line} (hl : Unmoved ls) (hm : Unmoved ms) :
    Unmoved (ls ++ ms) := by
  intro l hmem
  rcases List.mem_append.mp hmem with hmem | hmem
  · exact hl l hmem
  · exact hm l hmem

theorem unmoved_singleton {dest : Dest} {source : Source}
    (h : ∀ r ∈ Register.arguments, dest ≠ .register r) : Unmoved [.assign dest source] := by
  intro l hl r hr heq
  rw [List.mem_singleton.mp hl] at heq
  exact h r hr (Option.some.inj heq)

theorem unmoved_toLocation (hm : m.WellFormed) {x : String} {place : Location}
    (hl : m.location? x = some place) {source : Source} :
    Unmoved [.assign (toLocation place) source] := by
  refine unmoved_singleton fun r hr heq => ?_
  cases place with
  | register q =>
    obtain rfl := Dest.register.inj heq
    exact Register.not_mem_arguments (hm.isAllocatable hl) hr
  | slot k => cases heq

theorem entering_of_readable (h : ∀ r ∈ l.reads, Readable before r) : Entering before l where
  scratch r hr := (h r hr).scratch
  result hr := (h _ hr).result rfl
  arguments r hr harg := absurd harg (h r hr).arguments

theorem entering_argument (hbefore : Unmoved before) (hr : r ∈ Register.arguments)
    (place : Location) : Entering before (.assign (toLocation place) (.value (.register r))) := by
  have hreads : ∀ q ∈ Line.reads (.assign (toLocation place) (.value (.register r))), q = r := by
    cases place with
    | register | slot => exact fun q hq => List.mem_singleton.mp hq
  refine ⟨fun q hq hscratch => ?_, fun hresult => ?_, fun q _ harg l hl => hbefore l hl q harg⟩
  · rw [hreads q hq] at hscratch
    exact absurd hscratch (Register.not_mem_scratches_of_argument hr)
  · rw [← hreads _ hresult] at hr
    exact absurd hr (by decide)

theorem entering_inSlot {k : Nat} : Entering before (.assign (.register r) (.inSlot k)) :=
  entering_of_readable fun q hq => by cases hq

theorem param_follows (hm : m.WellFormed) (hpool : pool.Ready) (hbefore : Unmoved before)
    {position : Nat} {x : Ref α} {b : Unit} (h : (param m live position x).Gives pool ls pool' b) :
    Follows Entering before ls ∧ Unmoved ls ∧ pool'.Ready := by
  unfold param at h
  split at h
  · split at h
    · obtain ⟨rfl, rfl, -⟩ := gives_pure.mp h
      exact ⟨follows_nil, unmoved_nil, hpool⟩
    · rename_i place r hl hr
      obtain ⟨rfl, rfl⟩ := gives_assign.mp h
      exact ⟨follows_singleton (entering_argument hbefore (List.mem_of_getElem? hr) place),
        unmoved_toLocation hm hl, hpool⟩
    · rename_i r hl hposition
      obtain ⟨rfl, rfl⟩ := gives_assign.mp h
      exact ⟨follows_singleton entering_inSlot, unmoved_toLocation hm hl, hpool⟩
    · rename_i k hl hposition
      -- from one slot to another, through a scratch register
      obtain ⟨r, _, _, _, h₁, h₂, rfl⟩ := gives_bind.mp h
      obtain ⟨rfl, hacq⟩ := gives_acquire.mp h₁
      obtain ⟨_, _, _, _, h₃, h₄, rfl⟩ := gives_bind.mp h₂
      obtain ⟨rfl, rfl⟩ := gives_assign.mp h₃
      obtain ⟨_, _, _, _, h₅, h₆, rfl⟩ := gives_bind.mp h₄
      obtain ⟨rfl, rfl⟩ := gives_assign.mp h₅
      obtain ⟨rfl, hrel⟩ := gives_release.mp h₆
      have hr : r ∈ Register.scratches := by
        refine hpool.mem_scratches ?_
        rw [(Pool.acquire_eq_ok.mp hacq).1]
        exact List.mem_cons_self
      refine ⟨(follows_singleton entering_inSlot).append (follows_singleton ?_),
        (unmoved_singleton fun q hq heq => ?_).append (unmoved_toLocation hm hl),
        (hpool.acquire hacq).release hrel⟩
      · refine entering_of_readable fun q hq => ?_
        rw [List.mem_singleton.mp hq]
        exact readable_of_lastWrite hr (lastWrite_concat rfl)
      · obtain rfl := Dest.register.inj heq
        exact Register.not_mem_scratches_of_argument hq hr
  · obtain ⟨rfl, rfl, -⟩ := gives_pure.mp h
    exact ⟨follows_nil, unmoved_nil, hpool⟩

theorem params_follows (hm : m.WellFormed) (hpool : pool.Ready) (hbefore : Unmoved before)
    {position : Nat} {xs : List (Ref α)} {b : Unit}
    (h : (params m live position xs).Gives pool ls pool' b) : Follows Entering before ls := by
  induction xs generalizing position pool before ls with
  | nil =>
    obtain ⟨rfl, -, -⟩ := gives_pure.mp h
    exact follows_nil
  | cons x xs ih =>
    obtain ⟨_, _, _, _, h₁, h₂, rfl⟩ := gives_bind.mp h
    obtain ⟨hfirst, hunmoved, hready⟩ := param_follows hm hpool hbefore h₁
    exact hfirst.append (ih hready (hbefore.append hunmoved) h₂)

/-- **The lines of the prologue respect the reserved registers.** -/
theorem prologue_follows (hm : m.WellFormed) {fn : Function α} {b : Unit}
    (h : (prologue fn m live).Gives Pool.scratch ls pool' b) : Follows Entering [] ls := by
  obtain ⟨_, _, _, _, h₁, h₂, rfl⟩ := gives_bind.mp h
  obtain ⟨rfl, rfl⟩ := gives_lines.mp h₁
  refine Follows.append (follows_of_forall fun l hl before => ?_)
    (params_follows hm Pool.ready_scratch (fun l hl r _ heq => ?_) h₂)
  · obtain ⟨j, r, hj, rfl⟩ := mem_saveLines.mp hl
    refine entering_of_readable fun q hq => ?_
    rw [List.mem_singleton.mp hq]
    have hsaved := (Allocation.mem_calleeSavedIn.mp (List.mem_of_getElem? hj)).1
    exact readable_of_isAllocatable (by simp [Register.isAllocatable, hsaved])
  · obtain ⟨j, q, -, rfl⟩ := mem_saveLines.mp hl
    cases heq

end Emit

/-- **Reserved registers carry no value between instructions.**  Let the variables of a
function have places, and let the function be written.  Then in the prologue and in the lines
of each instruction, every scratch register that is read was written before in the same lines,
with no call in between; an operand in a slot is read from the scratch register that was last
loaded from this slot; the register for results is read only among the lines of a call, behind
the call and before it is written again; and argument registers are read only in the prologue,
before any line writes them. -/
theorem reserved_registers_local {α : Type} {fn : Function α} {live : Liveness}
    {registers : List (String × Register)} {slots : List (String × Int)} {m : Allocation}
    (hm : Allocation.ofPlaces registers slots = .ok m) {code : List Machine.Line} {pool : Pool}
    {frame : Frame}
    (hlower : (Emit.function fn m live).run Pool.scratch = ⟨code, pool, .ok frame⟩) :
    code = Emit.head fn m live ++ Emit.below fn m live ∧
      (∀ before l after, (Emit.prologue fn m live Pool.scratch).lines = before ++ l :: after →
        Emit.Entering before l) ∧
      ∀ index i, fn.body[index]? = some i → ∀ before l after,
        Emit.group m live index i = before ++ l :: after → Emit.Orderly m i before l := by
  have hwell := Allocation.wellFormed_of_ofPlaces hm
  obtain ⟨hcode, -, hprologue, hgroups⟩ := Emit.function_spec hwell hlower
  refine ⟨hcode, fun before l after heq => ?_, fun index i hi before l after heq => ?_⟩
  · exact Emit.prologue_follows hwell hprologue before l after heq
  · exact Emit.instr_follows hwell Pool.ready_scratch
      (fun r hr => Emit.isAllocatable_of_mem_kept hr) (hgroups index i hi) before l after heq

/-- All variables in slots. -/
def Sample.inSlots : Allocation :=
  ⟨[], [("n", 0), ("a", 1), ("b", 2), ("c", 3), ("d", 4)]⟩

theorem reserved_registers_local_sample :
    ∃ live code frame, Sample.function.liveness = .ok live ∧
      (Emit.function Sample.function Sample.inSlots live).run Pool.scratch
        = ⟨code, Pool.scratch, .ok frame⟩ ∧
      (∀ before l after, (Emit.prologue Sample.function Sample.inSlots live Pool.scratch).lines
        = before ++ l :: after → Emit.Entering before l) ∧
      ∀ index i, Sample.function.body[index]? = some i → ∀ before l after,
        Emit.group Sample.inSlots live index i = before ++ l :: after →
        Emit.Orderly Sample.inSlots i before l := by
  have hm : Allocation.ofPlaces [] [("n", 0), ("a", 1), ("b", 2), ("c", 3), ("d", 4)]
      = .ok Sample.inSlots := rfl
  obtain ⟨live, code, frame, hlive, hlower⟩ : ∃ live code frame,
      Sample.function.liveness = .ok live ∧
      (Emit.function Sample.function Sample.inSlots live).run Pool.scratch
        = ⟨code, Pool.scratch, .ok frame⟩ := ⟨_, _, _, rfl, rfl⟩
  obtain ⟨-, hprologue, hgroups⟩ := reserved_registers_local hm hlower
  exact ⟨live, code, frame, hlive, hlower, hprologue, hgroups⟩

end Vapor
