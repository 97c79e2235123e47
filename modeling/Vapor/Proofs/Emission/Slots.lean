/-
Vapor/Proofs/Emission/Slots.lean

The frame of a function and the slots in its lines (`frame_exact`).  Every slot in a
line lies within the frame, for all places of the variables.  And if the places come
from the linear scan, then no slot is declared in vain: every local slot and every slot
for outgoing arguments stands in some line.

The first half goes through the list of lines that can be written (`Written.within`).
For the second half one has to find a line for each slot: a generator `Shows` a
property if whenever it succeeds one of its lines has the property.  The lines are the
ones that keep callee-saved registers, those that load or pass a spilled variable, of
which there are some because every variable with a place is mentioned, those that keep
registers across the call that keeps most, and those that pass the arguments of the
call with most arguments.
-/
import Vapor.Proofs.Emission.Function

namespace Vapor

/-! ### Slots -/

namespace Machine

/-- A slot: of an incoming argument, of an outgoing one, or a local one. -/
inductive Slot where
  | incoming (offset : Nat)
  | outgoing (offset : Nat)
  | own (offset : Nat)
deriving DecidableEq, Repr

/-- The slots in a destination. -/
def Dest.slots : Dest → List Slot
  | .localSlot k => [.own k]
  | .outSlot k => [.outgoing k]
  | .register _ => []
  | .memory _ _ => []

/-- The slots in a source. -/
def Source.slots : Source → List Slot
  | .localSlot k => [.own k]
  | .inSlot k => [.incoming k]
  | .value _ => []
  | .memory _ _ => []
  | .apply _ _ => []

/-- The slots in a line. -/
def Line.slots : Line → List Slot
  | .assign dest source => dest.slots ++ source.slots
  | _ => []

end Machine

open Machine

/-- The frame has the slot. -/
def Frame.Has (frame : Frame) : Slot → Prop
  | .incoming k => k < frame.ins
  | .outgoing k => k < frame.outs
  | .own k => k < frame.locals

/-! ### The size of a frame -/

section Size

variable {α : Type} {fn : Function α} {m : Allocation} {live : Liveness} {k : Nat}

theorem lt_foldl_max {sizes : List Nat} {init : Nat} :
    k < sizes.foldl max init ↔ k < init ∨ ∃ size ∈ sizes, k < size := by
  induction sizes generalizing init with
  | nil => simp
  | cons size sizes ih =>
    rw [List.foldl_cons, ih, lt_max_iff]
    simp only [List.mem_cons, exists_eq_or_imp, or_assoc]

/-- A slot for outgoing arguments is there for a call. -/
theorem Function.lt_outs :
    k < (fn.frame m live).outs ↔ ∃ i ∈ fn.body, k < i.outSlots := by
  simp [frame, lt_foldl_max]

/-- A local slot is there for a callee-saved register or a variable, or to keep a
register across a call. -/
theorem Function.lt_locals :
    k < (fn.frame m live).locals ↔ k < m.slotCount ∨
      ∃ (index : Nat) (i : Instr α), fn.body[index]? = some i ∧
        k < m.slotCount + (i.kept m live index).length := by
  have hadd : ∀ size, k < m.slotCount + size ↔ k < m.slotCount ∨ k - m.slotCount < size := by
    omega
  -- what the frame takes the largest of counts from the first slot behind the variables
  show k < m.slotCount + _ ↔ _
  rw [hadd, lt_foldl_max]
  simp only [List.mem_map, Prod.exists, Nat.not_lt_zero, false_or]
  refine or_congr_right' fun hk => ?_
  constructor
  · rintro ⟨_, ⟨i, index, hmem, rfl⟩, hlt⟩
    exact ⟨index, i, (List.mem_zipIdx_iff_getElem? ..).mp hmem, (hadd _).mpr (.inr hlt)⟩
  · rintro ⟨index, i, hi, hlt⟩
    exact ⟨_, ⟨i, index, (List.mem_zipIdx_iff_getElem? ..).mpr hi, rfl⟩,
      ((hadd _).mp hlt).resolve_left hk⟩

end Size

namespace Emit

variable {α β γ : Type} {m : Allocation} {live : Liveness} {fn : Function α}
  {kept : List Register} {frame : Frame}

/-! ### Slots lie within the frame -/

/-- All slots in the line lie within the frame. -/
def Within (frame : Frame) (l : Line) : Prop :=
  ∀ s ∈ l.slots, frame.Has s

theorem within_of_slots_eq_nil {l : Line} (h : l.slots = []) : Within frame l := by
  intro s hs
  rw [h] at hs
  cases hs

theorem within_of_slots_eq {l : Line} {s : Slot} (h : l.slots = [s]) (hs : frame.Has s) :
    Within frame l := by
  intro s' hs'
  rw [h, List.mem_singleton] at hs'
  exact hs' ▸ hs

/-- **The slots in the lines of an instruction.** -/
theorem Written.within (hlocals : m.slotCount + kept.length ≤ frame.locals) {i : Instr α}
    (houts : i.outSlots ≤ frame.outs) {l : Line} (h : Written m kept i l) : Within frame l := by
  have hplace : ∀ {x : String} {k : Nat}, m.location? x = some (.slot k) → k < frame.locals := by
    intro x k hk
    have := Allocation.slot_lt_slotCount hk
    omega
  cases h with
  | fetch _ hk _ | putBack _ hk _ => exact within_of_slots_eq rfl (hplace hk)
  | keep hj | restore hj =>
    have hlt := (List.getElem?_eq_some_iff.mp hj).1
    exact within_of_slots_eq rfl (show _ < _ by omega)
  | @passVar _ _ _ _ _ _ l _ _ _ hl =>
    cases l with
    | register q => exact within_of_slots_eq_nil rfl
    | slot k => exact within_of_slots_eq rfl (hplace hl)
  | passSlot harg hr =>
    have hlt := (List.getElem?_eq_some_iff.mp harg).1
    have hle := List.getElem?_eq_none_iff.mp hr
    refine within_of_slots_eq rfl (show _ < _ from ?_)
    simp only [Instr.outSlots, argumentCount] at houts ⊢
    omega
  | unsave hj =>
    have hlt := (List.getElem?_eq_some_iff.mp hj).1
    have hle := Allocation.length_calleeSaved_le m
    exact within_of_slots_eq rfl (show _ < _ by omega)
  | assign | passLiteral | callLabel | callVar | result | apply | applyTo | store | load | branch
  | goto | value | ret => exact within_of_slots_eq_nil rfl

theorem Arriving.within (hlocals : m.slotCount ≤ frame.locals) {xs : List (Ref α)}
    (hins : xs.length - argumentCount ≤ frame.ins) {l : Line} (h : Arriving m xs l) :
    Within frame l := by
  have hplace : ∀ {x : String} {k : Nat}, m.location? x = some (.slot k) → k < frame.locals :=
    fun hk => Nat.lt_of_lt_of_le (Allocation.slot_lt_slotCount hk) hlocals
  cases h with
  | @fromRegister _ _ l _ _ _ hl =>
    cases l with
    | register q => exact within_of_slots_eq_nil rfl
    | slot k => exact within_of_slots_eq rfl (hplace hl)
  | fromSlot hx hposition =>
    have hlt := (List.getElem?_eq_some_iff.mp hx).1
    have hle := List.getElem?_eq_none_iff.mp hposition
    refine within_of_slots_eq rfl (show _ < _ from ?_)
    simp only [argumentCount] at hins ⊢
    omega
  | toSlot _ hk _ => exact within_of_slots_eq rfl (hplace hk)

/-- All slots in the lines of a function lie within its frame. -/
theorem within_function (hm : m.WellFormed) {code : List Line} {pool' : Pool}
    (h : (function fn m live).Gives Pool.scratch code pool' frame) :
    ∀ l ∈ code, Within frame l := by
  intro l hl
  obtain rfl := frame_eq h
  obtain ⟨rfl, -, -, -⟩ := function_spec hm h
  have hlocals : m.slotCount ≤ (fn.frame m live).locals := Nat.le_add_right _ _
  rw [head, prologue_lines, List.cons_append, List.mem_cons, List.mem_append, List.mem_append] at hl
  rcases hl with rfl | (hl | hl) | hl
  · exact within_of_slots_eq_nil rfl
  · obtain ⟨j, r, hj, rfl⟩ := mem_saveLines.mp hl
    have hlt := (List.getElem?_eq_some_iff.mp hj).1
    have hle := Allocation.length_calleeSaved_le m
    exact within_of_slots_eq rfl (show _ < _ by omega)
  · exact (arriving_of_mem_arrivals hl).within hlocals (Nat.le_refl _)
  · rcases mem_below hl with ⟨name, rfl⟩ | ⟨index, i, hi, hmem⟩
    · exact within_of_slots_eq_nil rfl
    · refine (written_of_mem_group hm hmem).within ?_ ?_
      · -- no other call keeps more
        exact le_of_forall_lt fun k hk => Function.lt_locals.mpr (.inr ⟨index, i, hi, hk⟩)
      · exact le_of_forall_lt fun k hk =>
          Function.lt_outs.mpr ⟨i, List.mem_of_getElem? hi, hk⟩

/-! ### Lines that are there -/

section Shows

variable {ε : Type} {P : Line → Prop} {x : String} {k : Nat}

/-- If the generator succeeds then one of its lines satisfies `P`. -/
def Shows (P : Line → Prop) (g : Emit ε β) : Prop :=
  ∀ pool ls pool' b, g.Gives pool ls pool' b → ∃ l ∈ ls, P l

theorem shows_lines {ls : List Line} {l : Line} (hl : l ∈ ls) (h : P l) :
    Shows P (lines ls : Emit ε Unit) := by
  intro pool ls' pool' b hgives
  obtain ⟨rfl, -⟩ := gives_lines.mp hgives
  exact ⟨l, hl, h⟩

theorem shows_line {l : Line} (h : P l) : Shows P (line l : Emit ε Unit) :=
  shows_lines List.mem_cons_self h

theorem shows_assign {dest : Dest} {source : Source} (h : P (.assign dest source)) :
    Shows P (assign dest source : Emit ε Unit) :=
  shows_line h

/-- The line is among those of the first generator. -/
theorem Shows.bind {g : Emit ε β} (h : Shows P g) (f : β → Emit ε γ) : Shows P (g >>= f) := by
  intro pool ls pool' c hgives
  obtain ⟨b, _, _, _, hfirst, -, rfl⟩ := gives_bind.mp hgives
  obtain ⟨l, hl, hP⟩ := h _ _ _ _ hfirst
  exact ⟨l, List.mem_append_left _ hl, hP⟩

/-- The line is among those of the second generator. -/
theorem shows_then (g : Emit ε β) {f : β → Emit ε γ} (h : ∀ b, Shows P (f b)) :
    Shows P (g >>= f) := by
  intro pool ls pool' c hgives
  obtain ⟨b, _, _, _, -, hsecond, rfl⟩ := gives_bind.mp hgives
  obtain ⟨l, hl, hP⟩ := h b _ _ _ _ hsecond
  exact ⟨l, List.mem_append_right _ hl, hP⟩

/-- The line has the slot. -/
def Holds (s : Slot) (l : Line) : Prop :=
  s ∈ l.slots

/-- A line for each of the slots in which registers are kept. -/
theorem exists_saveLine {base : Nat} {rs : List Register} (hlow : base ≤ k)
    (hk : k < base + rs.length) : ∃ l ∈ saveLines base rs, Holds (.own k) l := by
  have hlt : k - base < rs.length := by omega
  refine ⟨_, mem_saveLines.mpr ⟨k - base, _, List.getElem?_eq_getElem hlt, rfl⟩, ?_⟩
  rw [Nat.add_sub_of_le hlow]
  exact List.mem_cons_self

theorem shows_load {x : Ref α} (hk : m.location? x.name = some (.slot k)) :
    Shows (Holds (.own k)) (load m x) := by
  intro pool ls pool' r hgives
  rcases gives_load.mp hgives with ⟨hr, -⟩ | ⟨k', hk', -, rfl⟩
  · rw [hk] at hr
    cases hr
  · obtain rfl : k = k' := Location.slot.inj (Option.some.inj (hk.symm.trans hk'))
    exact ⟨_, List.mem_cons_self, List.mem_cons_self⟩

theorem shows_value {o : Operand α} (hx : x ∈ o.vars) (hk : m.location? x = some (.slot k)) :
    Shows (Holds (.own k)) (value m o) := by
  cases o with
  | var ref =>
    obtain rfl := List.mem_singleton.mp hx
    exact (shows_load hk).bind _
  | int | text | label => cases hx

theorem shows_values {os : List (Operand α)} (hx : x ∈ os.flatMap Operand.vars)
    (hk : m.location? x = some (.slot k)) : Shows (Holds (.own k)) (values m os) := by
  induction os with
  | nil => cases hx
  | cons o os ih =>
    rw [List.flatMap_cons, List.mem_append] at hx
    rcases hx with hx | hx
    · exact (shows_value hx hk).bind _
    · exact shows_then _ fun v => (ih hx).bind _

theorem shows_define {x : Ref α} (hk : m.location? x.name = some (.slot k)) (source : Source) :
    Shows (Holds (.own k)) (define m x source) :=
  (shows_load hk).bind _

theorem shows_passArgs {position j : Nat} {args : List (Operand α)} {arg : Operand α}
    (hj : args[j]? = some arg) (h : Shows P (passArg m (position + j) arg)) :
    Shows P (passArgs m position args) := by
  induction args generalizing position j with
  | nil => cases hj
  | cons first args ih =>
    cases j with
    | zero =>
      obtain rfl := Option.some.inj hj
      exact h.bind _
    | succ j =>
      refine shows_then _ fun _ => ih hj ?_
      rwa [show position + 1 + j = position + (j + 1) by omega]

/-- A variable is passed from its slot. -/
theorem shows_passArg {position : Nat} {arg : Operand α} (hx : x ∈ arg.vars)
    (hk : m.location? x = some (.slot k)) : Shows (Holds (.own k)) (passArg m position arg) := by
  cases arg with
  | var ref =>
    obtain rfl := List.mem_singleton.mp hx
    unfold passArg
    -- straight into an argument register, or by way of a scratch register into a slot; the
    -- other two cases are those of literals
    split
    · rename_i r y hr hy
      cases hy
      intro pool ls pool' b hgives
      obtain ⟨l, _, _, _, hloc, hassign, rfl⟩ := gives_bind.mp hgives
      obtain ⟨hl, -, -⟩ := gives_location.mp hloc
      obtain ⟨rfl, -⟩ := gives_assign.mp hassign
      obtain rfl : Location.slot k = l := Option.some.inj (hk.symm.trans hl)
      exact ⟨_, List.mem_append_right _ List.mem_cons_self, List.mem_cons_self⟩
    · rename_i hy
      cases hy
    · rename_i y hr hy
      cases hy
      exact (shows_load hk).bind _
    · rename_i hy
      cases hy
  | int | text | label => cases hx

/-- An argument beyond those that travel in registers goes to its slot. -/
theorem shows_passArg_out {position : Nat} (hposition : argumentCount ≤ position)
    (arg : Operand α) :
    Shows (Holds (.outgoing (position - argumentCount))) (passArg m position arg) := by
  have hnone : Register.arguments[position]? = none := List.getElem?_eq_none_iff.mpr hposition
  have hline : ∀ v, Holds (.outgoing (position - argumentCount))
      (.assign (.outSlot (position - argumentCount)) (.value v)) := fun _ => List.mem_cons_self
  unfold passArg
  rw [hnone]
  rcases literal arg with y | v
  · exact shows_then _ fun r => (shows_assign (hline _)).bind _
  · exact shows_assign (hline v)

/-- **A variable in a slot is seen in every instruction that mentions it.** -/
theorem shows_instr {i : Instr α} (hx : x ∈ i.uses ∨ x ∈ i.defs)
    (hk : m.location? x = some (.slot k)) : Shows (Holds (.own k)) (instr m kept i) := by
  rw [Instr.mem_defs] at hx
  -- `bind` for lines of the part that comes first, `shows_then` for those of later parts
  cases i with
  | assign dest source note =>
    rcases hx with hx | hx
    · exact shows_then _ fun r => (shows_value (Names.mem_ofList.mp hx) hk).bind _
    · obtain rfl := Option.some.inj hx
      exact (shows_load hk).bind _
  | call dest callee args note =>
    refine shows_then _ fun _ => ?_
    rcases hx with hx | hx
    · rcases List.mem_append.mp (Names.mem_ofList.mp hx) with hx | hx
      · cases callee with
        | label f => cases hx
        | var y =>
          obtain rfl := List.mem_singleton.mp hx
          exact shows_then _ fun _ => (Shows.bind (shows_load hk) _).bind _
      · obtain ⟨arg, harg, hx⟩ := List.mem_flatMap.mp hx
        obtain ⟨j, hj⟩ := List.mem_iff_getElem?.mp harg
        exact (shows_passArgs hj (shows_passArg hx hk)).bind _
    · cases dest with
      | none => cases hx
      | some y =>
        obtain rfl := Option.some.inj hx
        exact shows_then _ fun _ => shows_then _ fun _ => (shows_define hk _).bind _
  | apply dest op args note =>
    rcases hx with hx | hx
    · exact (shows_values (Names.mem_ofList.mp hx) hk).bind _
    · cases dest with
      | none => cases hx
      | some y =>
        obtain rfl := Option.some.inj hx
        exact shows_then _ fun vs => (shows_define hk _).bind _
  | store dest source note =>
    rcases hx with hx | hx
    · rcases List.mem_cons.mp (Names.mem_ofList.mp hx) with rfl | hx
      · exact (shows_load hk).bind _
      · exact shows_then _ fun r => (shows_value hx hk).bind _
    · cases hx
  | load dest source note =>
    rcases hx with hx | hx
    · obtain rfl := List.mem_singleton.mp hx
      exact shows_then _ fun r => (shows_load hk).bind _
    · obtain rfl := Option.some.inj hx
      exact (shows_load hk).bind _
  | branch test positive target note =>
    rcases hx with hx | hx
    · exact (shows_value (Names.mem_ofList.mp hx) hk).bind _
    · cases hx
  | goto target note =>
    rcases hx with hx | hx <;> cases hx
  | ret result note =>
    rcases hx with hx | hx
    · cases result with
      | none => cases hx
      | some o =>
        have hx : x ∈ o.vars := by simpa [Instr.uses] using Names.mem_ofList.mp hx
        exact (shows_value hx hk).bind _
    · cases hx

/-- Every slot for outgoing arguments is seen in a call that needs it. -/
theorem shows_instr_out {i : Instr α} (hk : k < i.outSlots) :
    Shows (Holds (.outgoing k)) (instr m kept i) := by
  cases i with
  | call dest callee args note =>
    have hlt : k + argumentCount < args.length := by
      simp only [Instr.outSlots] at hk
      omega
    have hshows := shows_passArg_out (m := m) (Nat.le_add_left argumentCount k)
      args[k + argumentCount]
    rw [Nat.add_sub_cancel] at hshows
    refine shows_then _ fun _ => Shows.bind ?_ _
    refine shows_passArgs (List.getElem?_eq_getElem hlt) ?_
    rwa [Nat.zero_add]
  | assign | apply | store | load | branch | goto | ret => cases hk

/-- Every slot in which a register is kept across a call is seen in it. -/
theorem shows_instr_kept {index : Nat} {i : Instr α} (hlow : m.slotCount ≤ k)
    (hk : k < m.slotCount + (i.kept m live index).length) :
    Shows (Holds (.own k)) (instr m (i.kept m live index) i) := by
  cases i with
  | call dest callee args note =>
    obtain ⟨l, hl, hholds⟩ := exists_saveLine hlow hk
    exact (shows_lines hl hholds).bind _
  | assign | apply | store | load | branch | goto | ret =>
    simp only [Instr.kept, List.length_nil] at hk
    omega

/-- What an instruction shows is seen in the function. -/
theorem Shows.mem_code (hm : m.WellFormed) {code : List Line} {pool' : Pool}
    (h : (function fn m live).Gives Pool.scratch code pool' frame) {index : Nat} {i : Instr α}
    (hi : fn.body[index]? = some i) (hshows : Shows P (instr m (i.kept m live index) i)) :
    ∃ l ∈ code, P l := by
  obtain ⟨hcode, -, -, hgroups⟩ := function_spec hm h
  obtain ⟨l, hl, hP⟩ := hshows _ _ _ _ (hgroups index i hi)
  have hle : index ≤ fn.body.length := Nat.le_of_lt (List.getElem?_eq_some_iff.mp hi).1
  obtain ⟨before, hsplit, -⟩ := code_split hm fn live hle
  refine ⟨l, ?_, hP⟩
  rw [hcode, hsplit, remaining_eq hi]
  simp [hl]

/-- The callee-saved registers in use are kept in the lowest slots. -/
theorem exists_line_calleeSaved (hm : m.WellFormed) {code : List Line} {pool' : Pool}
    (h : (function fn m live).Gives Pool.scratch code pool' frame)
    (hk : k < m.calleeSaved.length) : ∃ l ∈ code, Holds (.own k) l := by
  obtain ⟨rfl, -, -, -⟩ := function_spec hm h
  obtain ⟨l, hl, hholds⟩ := exists_saveLine (Nat.zero_le k) (by omega : k < 0 + m.calleeSaved.length)
  refine ⟨l, ?_, hholds⟩
  rw [head, prologue_lines]
  simp [hl]

end Shows

end Emit

/-- Every slot between those of the callee-saved registers and the first free one
belongs to a variable. -/
theorem Allocator.exists_location?_eq_slot {a : Allocator} (ha : a.WellFormed) (live : Liveness)
    {k : Nat} (hlow : (a.outcome live).calleeSaved.length ≤ k)
    (hk : k < (a.outcome live).slotCount) :
    ∃ x, (a.outcome live).location? x = some (.slot k) := by
  have hlength : (a.outcome live).slots.length = (a.scan live.intervals).spilled.length :=
    List.length_zipIdx
  rw [slotCount_outcome, hlength] at hk
  have hlt : k - (a.outcome live).calleeSaved.length < (a.scan live.intervals).spilled.length := by
    omega
  exact ⟨_, (location?_eq_slot_iff ha live).mpr ⟨hlow, List.getElem?_eq_getElem hlt⟩⟩

/-- **The frame of a function is as large as its lines need.**  For all places that are
accepted, every slot in a line lies within the frame.  With the places that the linear
scan finds for the function, every local slot of the frame and every slot for outgoing
arguments stands in some line. -/
theorem frame_exact {tokens : List Token} {p : Program Span} (hparse : parse tokens = .ok p)
    {fn : Function Span} (hfn : fn ∈ p.functions) {live : Liveness}
    (hlive : fn.liveness = .ok live) {registers : List (String × Register)}
    {slots : List (String × Int)} {m : Allocation}
    (hm : Allocation.ofPlaces registers slots = .ok m) {code : List Line} {pool : Pool}
    {frame : Frame}
    (hlower : (Emit.function fn m live).run Pool.scratch = ⟨code, pool, .ok frame⟩) :
    (∀ l ∈ code, ∀ s ∈ l.slots, frame.Has s) ∧
      ∀ a : Allocator, a.WellFormed → a.allocate live = .ok m →
        (∀ k < frame.locals, ∃ l ∈ code, Slot.own k ∈ l.slots) ∧
          ∀ k < frame.outs, ∃ l ∈ code, Slot.outgoing k ∈ l.slots := by
  have hplaces := Allocation.wellFormed_of_ofPlaces hm
  have hwf := parse_wellFormed hparse fn hfn
  refine ⟨Emit.within_function hplaces hlower, fun a ha hscan => ?_⟩
  obtain rfl : a.outcome live = m :=
    Except.ok.inj ((Allocator.allocate_eq_ok ha live).symm.trans hscan)
  obtain rfl := Emit.frame_eq hlower
  constructor
  · intro k hk
    by_cases hlow : k < (a.outcome live).calleeSaved.length
    · exact Emit.exists_line_calleeSaved hplaces hlower hlow
    by_cases hhigh : k < (a.outcome live).slotCount
    · -- a spilled variable, which some instruction mentions
      obtain ⟨x, hx⟩ := Allocator.exists_location?_eq_slot ha live (Nat.le_of_not_lt hlow) hhigh
      have hname := (Allocator.exists_location?_outcome ha live).mp ⟨_, hx⟩
      obtain ⟨i, hi, hmention⟩ := (Function.mem_names_intervals hwf hlive).mp hname
      obtain ⟨index, hindex⟩ := List.mem_iff_getElem?.mp hi
      exact (Emit.shows_instr hmention hx).mem_code hplaces hlower hindex
    · obtain ⟨index, i, hi, hkept⟩ := (Function.lt_locals.mp hk).resolve_left hhigh
      exact (Emit.shows_instr_kept (Nat.le_of_not_lt hhigh) hkept).mem_code hplaces hlower hi
  · intro k hk
    obtain ⟨i, hi, hout⟩ := Function.lt_outs.mp hk
    obtain ⟨index, hindex⟩ := List.mem_iff_getElem?.mp hi
    exact (Emit.shows_instr_out hout).mem_code hplaces hlower hindex

theorem frame_exact_sample :
    ∃ live m code, Sample.function.liveness = .ok live ∧
      Sample.allocator.allocate live = .ok m ∧
      (Emit.function Sample.function m live).run Pool.scratch
        = ⟨code, Pool.scratch, .ok ⟨1, 1, 5⟩⟩ ∧
      (∀ l ∈ code, ∀ s ∈ l.slots, Frame.Has ⟨1, 1, 5⟩ s) ∧
      (∀ k < 5, ∃ l ∈ code, Slot.own k ∈ l.slots) ∧
      ∀ k < 1, ∃ l ∈ code, Slot.outgoing k ∈ l.slots := by
  obtain ⟨live, m, code, hlive, hscan, hlower⟩ : ∃ live m code,
      Sample.function.liveness = .ok live ∧ Sample.allocator.allocate live = .ok m ∧
      (Emit.function Sample.function m live).run Pool.scratch
        = ⟨code, Pool.scratch, .ok ⟨1, 1, 5⟩⟩ := ⟨_, _, _, rfl, rfl, rfl⟩
  obtain ⟨hwithin, htight⟩ :=
    frame_exact Sample.parse_tokens Sample.mem_functions hlive hscan hlower
  exact ⟨live, m, code, hlive, hscan, hlower, hwithin,
    htight Sample.allocator Sample.wellFormed_allocator hscan⟩

end Vapor
