/-
Vapor/Proofs/Emission/Preservation.lean

A function leaves the callee-saved registers as it has found them, for all places of
its variables, also where variables disturb one another, and whichever way control
goes through its lines (`function_preserves_calleeSaved`).

A path through the lines (`Machine.Moves`) may take every conditional jump either way
and find any value in memory; only the registers and the local slots are followed.
The prologue keeps the callee-saved registers in use.  After it no line writes where
they are kept, nor a callee-saved register that is not kept (`Spares`).  And whenever a
line returns, the lines right before it have brought the registers back; no label
stands among these, so there is no other way to it (`Leaves`).
-/
import Mathlib.Logic.Relation
import Vapor.Proofs.Emission.Function

namespace Vapor

namespace Machine

variable {V W : Type}

/-! ### Paths -/

/-- How far a path through the lines of a function has come: the number of the next
line, the registers and the local slots of the activation. -/
structure View (V : Type) where
  line : Nat
  regs : Register → V
  locals : Nat → V

/-- The source may have the value.  A register or a local slot has the value that is
in it; of anything else nothing is known. -/
def Source.MayBe (t : View V) (v : V) : Source → Prop
  | .value (.register r) => v = t.regs r
  | .localSlot k => v = t.locals k
  | _ => True

namespace View

/-- On to the next line. -/
def next (t : View V) : View V :=
  { t with line := t.line + 1 }

/-- On to the next line, after an assignment. -/
def assign (t : View V) (dest : Dest) (v : V) : View V :=
  match dest with
  | .register r => { t.next with regs := fun q => if q = r then v else t.regs q }
  | .localSlot k => { t.next with locals := fun j => if j = k then v else t.locals j }
  | .outSlot _ => t.next
  | .memory _ _ => t.next

end View

/-- Where a line may lead to.  A conditional jump may go either way.  A call leaves the
callee-saved registers and the local slots of the caller as they are. -/
def Line.Leads (code : List Line) (t t' : View V) : Line → Prop
  | header _ _ => t' = t.next
  | label _ => t' = t.next
  | assign dest source => ∃ v, source.MayBe t v ∧ t' = t.assign dest v
  | apply _ _ => t' = t.next
  | call _ => ∃ regs, (∀ r, r.isCalleeSaved = true → regs r = t.regs r) ∧
      t' = { t.next with regs := regs }
  | branch _ _ target => t' = t.next ∨
      ∃ line, code[line]? = some (.label target) ∧ t' = { t with line := line }
  | goto target => ∃ line, code[line]? = some (.label target) ∧ t' = { t with line := line }
  | ret => False

/-- The moves from line to line; there is none from a line that returns. -/
def Moves (code : List Line) (t t' : View V) : Prop :=
  ∃ l, code[t.line]? = some l ∧ l.Leads code t t'

/-- What a line assigns to. -/
def Line.dest? : Line → Option Dest
  | .assign dest _ => some dest
  | _ => none

end Machine

namespace Emit

open Machine

variable {α V : Type} {m : Allocation} {live : Liveness} {fn : Function α} {kept : List Register}

/-! ### Lines that spare what is kept -/

/-- The line writes no slot in which a callee-saved register is kept, and no
callee-saved register that is not kept. -/
structure Spares (m : Allocation) (l : Line) : Prop where
  slots : ∀ k, l.dest? = some (.localSlot k) → m.calleeSaved.length ≤ k
  registers : ∀ r, l.dest? = some (.register r) → r.isCalleeSaved = true → r ∈ m.calleeSaved

theorem spares_elsewhere {l : Line} (hslot : ∀ k, l.dest? ≠ some (.localSlot k))
    (hreg : ∀ r, l.dest? ≠ some (.register r)) : Spares m l :=
  ⟨fun k hk => absurd hk (hslot k), fun r hr => absurd hr (hreg r)⟩

theorem spares_register {r : Register} {source : Source}
    (h : r.isCalleeSaved = true → r ∈ m.calleeSaved) : Spares m (.assign (.register r) source) where
  slots k hk := by cases hk
  registers q hq hsaved := by
    obtain rfl : r = q := Dest.register.inj (Option.some.inj hq)
    exact h hsaved

theorem spares_slot {k : Nat} {source : Source} (h : m.calleeSaved.length ≤ k) :
    Spares m (.assign (.localSlot k) source) where
  slots j hj := by
    obtain rfl : k = j := Dest.localSlot.inj (Option.some.inj hj)
    exact h
  registers q hq := by cases hq

theorem mem_calleeSaved_of_stands {x : String} {r : Register} (h : Stands m x r)
    (hr : r.isCalleeSaved = true) : r ∈ m.calleeSaved := by
  obtain ⟨l, hl, rfl | ⟨hscratch, -⟩⟩ := h
  · exact Allocation.mem_calleeSaved_of_location? hl hr
  · exact absurd hscratch (Register.not_mem_scratches (by simp [Register.isAllocatable, hr]))

theorem spares_scratch {r : Register} {source : Source} (h : r ∈ Register.scratches) :
    Spares m (.assign (.register r) source) :=
  spares_register fun hr =>
    absurd h (Register.not_mem_scratches (by simp [Register.isAllocatable, hr]))

theorem spares_argument {position : Nat} {r : Register} {source : Source}
    (h : Register.arguments[position]? = some r) : Spares m (.assign (.register r) source) :=
  spares_register fun hr => absurd (List.mem_of_getElem? h)
    (Register.not_mem_arguments (by simp [Register.isAllocatable, hr]))

/-- **The lines of an instruction spare what is kept.** -/
theorem Written.spares (hm : m.WellFormed) (hkept : ∀ r ∈ kept, r.isCalleeSaved = false)
    {i : Instr α} {l : Line} (h : Written m kept i l) : Spares m l := by
  cases h with
  | fetch _ _ hr => exact spares_scratch hr
  | putBack _ hk _ => exact spares_slot (hm.length_le_slot hk)
  | keep => exact spares_slot ((Allocation.length_calleeSaved_le m).trans (Nat.le_add_right _ _))
  | assign hr _ | result hr | applyTo hr _ | load hr _ =>
    exact spares_register (mem_calleeSaved_of_stands hr)
  | passVar _ hr _ | passLiteral _ hr _ => exact spares_argument hr
  | restore hj =>
    refine spares_register fun hr => ?_
    rw [hkept _ (List.mem_of_getElem? hj)] at hr
    cases hr
  | value => exact spares_register fun hr => by cases hr
  | unsave hj => exact spares_register fun _ => List.mem_of_getElem? hj
  | passSlot | store | callLabel | callVar | apply | branch | goto | ret =>
    exact spares_elsewhere (fun k h => by cases h) (fun r h => by cases h)

theorem Arriving.spares (hm : m.WellFormed) {xs : List (Ref α)} {l : Line}
    (h : Arriving m xs l) : Spares m l := by
  cases h with
  | @fromRegister _ x l r _ _ hl =>
    cases l with
    | register q => exact spares_register (Allocation.mem_calleeSaved_of_location? hl)
    | slot k => exact spares_slot (hm.length_le_slot hl)
  | fromSlot _ _ hr => exact spares_register (mem_calleeSaved_of_stands hr)
  | toSlot _ hk _ => exact spares_slot (hm.length_le_slot hk)

theorem isCalleeSaved_of_mem_kept {index : Nat} {i : Instr α} {r : Register}
    (h : r ∈ i.kept m live index) : r.isCalleeSaved = false := by
  cases i with
  | call =>
    obtain ⟨j, -, rfl⟩ := List.mem_map.mp (List.mem_filter.mp h).1
    rfl
  | assign | apply | store | load | branch | goto | ret => cases h

theorem spares_below (hm : m.WellFormed) {l : Line} (h : l ∈ below fn m live) : Spares m l := by
  rcases mem_below h with ⟨name, rfl⟩ | ⟨index, i, -, hmem⟩
  · exact spares_elsewhere (fun k h => by cases h) (fun r h => by cases h)
  · exact (written_of_mem_group hm hmem).spares hm fun r => isCalleeSaved_of_mem_kept

/-! ### Lines that return -/

/-- Whatever returns is preceded by lines that bring the callee-saved registers back. -/
def Leaves (m : Allocation) (ls : List Line) : Prop :=
  ∀ before after, ls = before ++ .ret :: after → restoreLines 0 m.calleeSaved <:+ before

theorem leaves_of_not_mem {ls : List Line} (h : Line.ret ∉ ls) : Leaves m ls := by
  rintro before after rfl
  exact absurd (List.mem_append_right _ List.mem_cons_self) h

theorem Leaves.append {ls ms : List Line} (hl : Leaves m ls) (hm : Leaves m ms) :
    Leaves m (ls ++ ms) := by
  intro before after h
  rcases List.append_eq_append_iff.mp h with ⟨more, rfl, heq⟩ | ⟨more, rfl, heq⟩
  · -- the line is in the second part
    exact (hm more after heq).trans (List.suffix_append _ _)
  · cases more with
    | nil => exact (hm [] after heq.symm).trans List.nil_suffix
    | cons l more =>
      obtain ⟨rfl, -⟩ := List.cons.inj heq
      exact hl before more rfl

theorem leaves_concat {ls : List Line} (hret : Line.ret ∉ ls)
    (h : restoreLines 0 m.calleeSaved <:+ ls) : Leaves m (ls ++ [.ret]) := by
  intro before after heq
  rcases List.eq_nil_or_concat after with rfl | ⟨after, last, rfl⟩
  · obtain ⟨rfl, -⟩ := List.append_inj' heq rfl
    exact h
  · -- something follows the line that returns, so it is not the last one
    rw [List.concat_eq_append, ← List.cons_append, ← List.append_assoc] at heq
    obtain ⟨rfl, -⟩ := List.append_inj' heq rfl
    exact absurd (List.mem_append_right _ List.mem_cons_self) hret

theorem leaves_ret (hm : m.WellFormed) {result : Option (Operand α)} {note : α} {pool' : Pool}
    {ls : List Line} {b : Unit}
    (h : (instr m kept (.ret result note)).Gives Pool.scratch ls pool' b) : Leaves m ls := by
  have hrestore : Line.ret ∉ restoreLines 0 m.calleeSaved := by
    intro hmem
    obtain ⟨j, r, -, heq⟩ := mem_restoreLines.mp hmem
    cases heq
  cases result with
  | none =>
    obtain ⟨_, _, _, _, h₁, h₂, rfl⟩ := gives_bind.mp h
    obtain ⟨rfl, rfl⟩ := gives_lines.mp h₁
    obtain ⟨rfl, rfl⟩ := gives_line.mp h₂
    exact leaves_concat hrestore (List.suffix_refl _)
  | some o =>
    obtain ⟨v, _, ls₁, _, h₁, h₂, rfl⟩ := gives_bind.mp h
    obtain ⟨_, _, _, _, h₃, h₄, rfl⟩ := gives_bind.mp h₂
    obtain ⟨rfl, rfl⟩ := gives_assign.mp h₃
    obtain ⟨_, _, _, _, h₅, h₆, rfl⟩ := gives_bind.mp h₄
    obtain ⟨_, _, _, _, h₇, h₈, rfl⟩ := gives_bind.mp h₆
    obtain ⟨rfl, rfl⟩ := gives_lines.mp h₇
    obtain ⟨rfl, rfl⟩ := gives_line.mp h₈
    obtain ⟨rfl, -⟩ := drop_spec (value_spec hm Pool.ready_scratch h₁).ready h₅
    -- the lines before evaluate the operand
    have hvalue : ∀ l ∈ ls₁, l ≠ .ret := by
      have hkeeps := keeps_value (P := (· ≠ .ret)) (m := m) (o := o)
        (fun _ _ _ _ _ _ hl => by cases hl) Pool.scratch Pool.ready_scratch
      rw [show value m o Pool.scratch = _ from h₁] at hkeeps
      exact hkeeps.1
    refine (leaves_of_not_mem fun hmem => hvalue _ hmem rfl).append ?_
    rw [List.nil_append, ← List.append_assoc]
    refine leaves_concat ?_ (List.suffix_append _ _)
    rw [List.mem_append, List.mem_singleton]
    rintro (hmem | hmem)
    · cases hmem
    · exact hrestore hmem

theorem leaves_group (hm : m.WellFormed) {index : Nat} {i : Instr α}
    (h : (instr m (i.kept m live index) i).Gives Pool.scratch (group m live index i)
      Pool.scratch ()) : Leaves m (group m live index i) := by
  cases i with
  | ret result note => exact leaves_ret hm h
  | assign | call | apply | store | load | branch | goto =>
    refine leaves_of_not_mem fun hmem => ?_
    cases written_of_mem_group hm hmem

theorem leaves_labelLines (fn : Function α) (index : Nat) : Leaves m (labelLines fn index) := by
  refine leaves_of_not_mem fun hmem => ?_
  obtain ⟨name, -, heq⟩ := List.mem_map.mp hmem
  cases heq

theorem leaves_groups (hm : m.WellFormed) {index : Nat} {instrs : List (Instr α)}
    (h : ∀ j i, instrs[j]? = some i → (instr m (i.kept m live (index + j)) i).Gives Pool.scratch
      (group m live (index + j) i) Pool.scratch ()) :
    Leaves m (groups fn m live index instrs) := by
  induction instrs generalizing index with
  | nil => exact leaves_of_not_mem List.not_mem_nil
  | cons i instrs ih =>
    refine (leaves_group hm (h 0 i rfl)).append ((leaves_labelLines fn _).append (ih ?_))
    intro j i' hj
    have hrest := h (j + 1) i' hj
    rwa [show index + (j + 1) = index + 1 + j by omega] at hrest

/-! ### The parts of a function -/

/-- What a function must be made of for its registers to be safe: lines that keep the
callee-saved registers in use, and then lines that spare them and bring them back
before they return. -/
structure Guards (m : Allocation) (header : Line) (rest code : List Line) : Prop where
  code_eq : code = header :: (saveLines 0 m.calleeSaved ++ rest)
  opening : ∃ name frame, header = .header name frame
  spares : ∀ l ∈ rest, Spares m l
  leaves : Leaves m rest

theorem function_guards (hm : m.WellFormed) {code : List Line} {pool' : Pool} {frame : Frame}
    (h : (function fn m live).Gives Pool.scratch code pool' frame) :
    Guards m (.header fn.name (fn.frame m live)) (arrivals fn m live ++ below fn m live) code := by
  obtain ⟨hcode, -, -, hgroups⟩ := function_spec hm h
  refine ⟨?_, ⟨_, _, rfl⟩, fun l hl => ?_, .append ?_ ?_⟩
  · rw [hcode, head, prologue_lines, below]
    simp only [List.cons_append, List.append_assoc]
  · rcases List.mem_append.mp hl with hl | hl
    · exact (arriving_of_mem_arrivals hl).spares hm
    · exact spares_below hm hl
  · refine leaves_of_not_mem fun hmem => ?_
    cases arriving_of_mem_arrivals hmem
  · refine (leaves_labelLines fn 0).append (leaves_groups hm fun j i hj => ?_)
    rw [Nat.zero_add]
    exact hgroups j i hj

/-! ### Along a path -/

section Paths

variable {header : Line} {rest code : List Line} {entry : Register → V} {t t' : View V} {l : Line}

theorem getElem?_restoreLines (rs : List Register) (j : Nat) :
    (restoreLines 0 rs)[j]? = rs[j]?.map fun r => .assign (.register r) (.localSlot j) := by
  rw [restoreLines, List.getElem?_map, List.getElem?_zipIdx, Option.map_map, Nat.zero_add]
  rfl

theorem getElem?_saveLines (rs : List Register) (j : Nat) :
    (saveLines 0 rs)[j]? = rs[j]?.map fun r => .assign (.localSlot j) (.value (.register r)) := by
  rw [saveLines, List.getElem?_map, List.getElem?_zipIdx, Option.map_map, Nat.zero_add]
  rfl

theorem length_saveLines (base : Nat) (rs : List Register) :
    (saveLines base rs).length = rs.length := by
  rw [saveLines, List.length_map, List.length_zipIdx]

theorem length_restoreLines (base : Nat) (rs : List Register) :
    (restoreLines base rs).length = rs.length := by
  rw [restoreLines, List.length_map, List.length_zipIdx]

/-- In the middle of the lines that bring the registers back, the line before is one of
them too. -/
theorem Leaves.preceding (h : Leaves m code) {line j : Nat} {more : List Line}
    (hl : code[line]? = some l) (hj : j < m.calleeSaved.length)
    (hdrop : code.drop (line + 1)
      = (restoreLines 0 m.calleeSaved).drop (j + 1) ++ .ret :: more) :
    (restoreLines 0 m.calleeSaved)[j]? = some l ∧
      code.drop line = (restoreLines 0 m.calleeSaved).drop j ++ .ret :: more := by
  obtain ⟨hlt, rfl⟩ := List.getElem?_eq_some_iff.mp hl
  have hlen : j < (restoreLines 0 m.calleeSaved).length := by
    rwa [length_restoreLines]
  obtain ⟨before, hbefore⟩ := h (code.take (line + 1) ++ (restoreLines 0 m.calleeSaved).drop (j + 1))
    more (by rw [List.append_assoc, ← hdrop, List.take_append_drop])
  -- what both sides have in common is cut off at the end, then the last line is compared
  have hlast : code[line] = (restoreLines 0 m.calleeSaved)[j] := by
    conv at hbefore => lhs; rw [← List.take_append_drop (j + 1) (restoreLines 0 m.calleeSaved)]
    rw [← List.append_assoc, List.append_left_inj, List.take_succ_eq_append_getElem hlen,
      List.take_succ_eq_append_getElem hlt, ← List.append_assoc] at hbefore
    exact (List.singleton_inj.mp (List.append_inj' hbefore rfl).2).symm
  refine ⟨by rw [List.getElem?_eq_getElem hlen, hlast], ?_⟩
  rw [List.drop_eq_getElem_cons hlt, List.drop_eq_getElem_cons hlen, hlast, hdrop]
  rfl

/-- The registers in use are kept in their slots, and the others have not changed. -/
structure KeptAt (m : Allocation) (entry : Register → V) (t : View V) : Prop where
  saved : ∀ k r, m.calleeSaved[k]? = some r → t.locals k = entry r
  untouched : ∀ r, r.isCalleeSaved = true → r ∉ m.calleeSaved → t.regs r = entry r

/-- As far as the lines before have brought registers back, they are as on entry. -/
def BackAt (m : Allocation) (code : List Line) (entry : Register → V) (t : View V) : Prop :=
  ∀ j more, j ≤ m.calleeSaved.length →
    code.drop t.line = (restoreLines 0 m.calleeSaved).drop j ++ .ret :: more →
      ∀ k r, k < j → m.calleeSaved[k]? = some r → t.regs r = entry r

/-- What holds all along a path: the registers are being kept by the prologue, or they
are kept. -/
inductive Shielded (m : Allocation) (code : List Line) (entry : Register → V) (t : View V) :
    Prop where
  | opening (hline : t.line ≤ m.calleeSaved.length)
      (hregs : ∀ r, r.isCalleeSaved = true → t.regs r = entry r)
      (hsaved : ∀ k r, k + 1 < t.line → m.calleeSaved[k]? = some r → t.locals k = entry r)
  | inside (hline : m.calleeSaved.length < t.line) (hkept : KeptAt m entry t)
      (hback : BackAt m code entry t)

theorem isCalleeSaved_of_getElem? {k : Nat} {r : Register} (h : m.calleeSaved[k]? = some r) :
    r.isCalleeSaved = true :=
  (Allocation.mem_calleeSavedIn.mp (List.mem_of_getElem? h)).1

theorem Guards.leaves_code (hg : Guards m header rest code) : Leaves m code := by
  obtain ⟨name, frame, rfl⟩ := hg.opening
  rw [hg.code_eq, ← List.cons_append]
  refine (leaves_of_not_mem fun hmem => ?_).append hg.leaves
  rcases List.mem_cons.mp hmem with hmem | hmem
  · cases hmem
  · obtain ⟨j, r, -, heq⟩ := mem_saveLines.mp hmem
    cases heq

theorem Guards.getElem?_zero (hg : Guards m header rest code) : code[0]? = some header := by
  rw [hg.code_eq]
  rfl

theorem Guards.getElem?_succ (hg : Guards m header rest code) {k : Nat} {r : Register}
    (h : m.calleeSaved[k]? = some r) :
    code[k + 1]? = some (.assign (.localSlot k) (.value (.register r))) := by
  obtain ⟨hlt, -⟩ := List.getElem?_eq_some_iff.mp h
  rw [hg.code_eq, List.getElem?_cons_succ, List.getElem?_append_left, getElem?_saveLines, h]
  · rfl
  · rwa [length_saveLines]

/-- Every line after those that keep the registers spares them. -/
theorem Guards.spares_line (hg : Guards m header rest code)
    (hline : m.calleeSaved.length < t.line) (hl : code[t.line]? = some l) : Spares m l := by
  obtain ⟨k, hk⟩ : ∃ k, t.line = m.calleeSaved.length + k + 1 := ⟨t.line - m.calleeSaved.length - 1,
    by omega⟩
  rw [hg.code_eq, hk, List.getElem?_cons_succ, List.getElem?_append_right (by
    rw [length_saveLines]; omega)] at hl
  exact hg.spares l (List.mem_of_getElem? hl)

/-- No label stands before the lines that spare the registers. -/
theorem Guards.lt_of_label (hg : Guards m header rest code) {line : Nat} {name : String}
    (hl : code[line]? = some (.label name)) : m.calleeSaved.length < line := by
  by_contra hle
  cases line with
  | zero =>
    obtain ⟨_, _, rfl⟩ := hg.opening
    rw [hg.getElem?_zero] at hl
    cases hl
  | succ k =>
    have hk := List.getElem?_eq_getElem (show k < m.calleeSaved.length by omega)
    rw [hg.getElem?_succ hk] at hl
    cases hl

theorem KeptAt.assign (h : KeptAt m entry t) {dest : Dest} {source : Source}
    (hspares : Spares m (.assign dest source)) (v : V) : KeptAt m entry (t.assign dest v) := by
  cases dest with
  | register r =>
    refine ⟨h.saved, fun q hq hnot => (if_neg ?_).trans (h.untouched q hq hnot)⟩
    rintro rfl
    exact hnot (hspares.registers q rfl hq)
  | localSlot k =>
    refine ⟨fun j q hj => (if_neg ?_).trans (h.saved j q hj), h.untouched⟩
    rintro rfl
    obtain ⟨hlt, -⟩ := List.getElem?_eq_some_iff.mp hj
    exact absurd (hspares.slots j rfl) (by omega)
  | outSlot | memory => exact ⟨h.saved, h.untouched⟩

/-- Going on to the next line brings at most one register back. -/
theorem BackAt.next (hleaves : Leaves m code) (hkept : KeptAt m entry t)
    (hback : BackAt m code entry t) (hl : code[t.line]? = some l) (hlead : l.Leads code t t')
    (hline : t'.line = t.line + 1) : BackAt m code entry t' := by
  intro j more hj hdrop k r hk hr
  cases j with
  | zero => omega
  | succ j =>
    rw [hline] at hdrop
    obtain ⟨hget, hdrop'⟩ := hleaves.preceding hl (by omega) hdrop
    obtain ⟨q, hq, heq⟩ : ∃ q, m.calleeSaved[j]? = some q ∧
        l = .assign (.register q) (.localSlot j) := by
      rw [getElem?_restoreLines, Option.map_eq_some_iff] at hget
      obtain ⟨q, hq, heq⟩ := hget
      exact ⟨q, hq, heq.symm⟩
    subst heq
    obtain ⟨v, hv, rfl⟩ := hlead
    show (if r = q then v else t.regs r) = entry r
    split
    · rename_i heq
      rw [heq, hv, hkept.saved j q hq]
    · -- it is one of those that have been brought back before
      rename_i hne
      have hkj : k < j := by
        by_contra hle
        obtain rfl : k = j := by omega
        exact hne (Option.some.inj (hr.symm.trans hq))
      exact hback j more (by omega) hdrop' k r hkj hr

/-- A line with a label is not one of those that bring registers back. -/
theorem backAt_label {line : Nat} {name : String} (hl : code[line]? = some (.label name))
    (regs : Register → V) (locals : Nat → V) : BackAt m code entry ⟨line, regs, locals⟩ := by
  intro j more hj hdrop k r hk hr
  have hhead : (code.drop line).head? = some (.label name) := by rw [List.head?_drop, hl]
  rw [hdrop] at hhead
  cases hrest : (restoreLines 0 m.calleeSaved).drop j with
  | nil =>
    rw [hrest] at hhead
    cases hhead
  | cons x xs =>
    have hx : x ∈ restoreLines 0 m.calleeSaved :=
      List.drop_subset j _ (hrest ▸ List.mem_cons_self)
    obtain ⟨i, q, -, rfl⟩ := mem_restoreLines.mp hx
    rw [hrest] at hhead
    cases hhead

/-- As long as the registers are as on entry, and kept as far as the prologue has come. -/
theorem Shielded.of_opening (hline : t.line ≤ m.calleeSaved.length + 1)
    (hregs : ∀ r, r.isCalleeSaved = true → t.regs r = entry r)
    (hsaved : ∀ k r, k + 1 < t.line → m.calleeSaved[k]? = some r → t.locals k = entry r) :
    Shielded m code entry t := by
  by_cases hle : t.line ≤ m.calleeSaved.length
  · exact .opening hle hregs hsaved
  · refine .inside (by omega) ⟨fun k r hk => ?_, fun r hr _ => hregs r hr⟩ fun _ _ _ _ k r _ hk => ?_
    · obtain ⟨hlt, -⟩ := List.getElem?_eq_some_iff.mp hk
      exact hsaved k r (by omega) hk
    · exact hregs r (isCalleeSaved_of_getElem? hk)

/-- The prologue keeps one register after the other. -/
theorem Shielded.move_opening (hg : Guards m header rest code)
    (hline : t.line ≤ m.calleeSaved.length)
    (hregs : ∀ r, r.isCalleeSaved = true → t.regs r = entry r)
    (hsaved : ∀ k r, k + 1 < t.line → m.calleeSaved[k]? = some r → t.locals k = entry r)
    (hl : code[t.line]? = some l) (hlead : l.Leads code t t') : Shielded m code entry t' := by
  cases hzero : t.line with
  | zero =>
    obtain ⟨_, _, rfl⟩ := hg.opening
    rw [hzero, hg.getElem?_zero] at hl
    obtain rfl := Option.some.inj hl
    obtain rfl : t' = t.next := hlead
    refine .of_opening ?_ hregs fun k r hk => absurd hk ?_
    · show t.line + 1 ≤ _
      omega
    · show ¬ k + 1 < t.line + 1
      omega
  | succ k =>
    have hk := List.getElem?_eq_getElem (show k < m.calleeSaved.length by omega)
    rw [hzero, hg.getElem?_succ hk] at hl
    obtain rfl := Option.some.inj hl
    obtain ⟨v, hv, rfl⟩ := hlead
    refine .of_opening ?_ hregs fun j r hj hr => ?_
    · show t.line + 1 ≤ _
      omega
    · show (if j = k then v else t.locals j) = entry r
      split
      · rename_i heq
        rw [heq, hk] at hr
        rw [hv, hregs _ (isCalleeSaved_of_getElem? hk), Option.some.inj hr]
      · have hj' : j + 1 < t.line + 1 := hj
        exact hsaved j r (by omega) hr

/-- **One move.** -/
theorem Shielded.move (hg : Guards m header rest code) (h : Shielded m code entry t)
    (hmove : Moves code t t') : Shielded m code entry t' := by
  obtain ⟨l, hl, hlead⟩ := hmove
  cases h with
  | opening hline hregs hsaved => exact .move_opening hg hline hregs hsaved hl hlead
  | inside hline hkept hback =>
    -- either control goes on to the next line, or it jumps to a label
    have hnext : t'.line = t.line + 1 → KeptAt m entry t' → Shielded m code entry t' :=
      fun hline' hkept' =>
        .inside (by omega) hkept' (hback.next hg.leaves_code hkept hl hlead hline')
    have hjump : ∀ line name, code[line]? = some (.label name) → t' = { t with line := line } →
        Shielded m code entry t' := by
      rintro line name hlabel rfl
      exact .inside (hg.lt_of_label hlabel) ⟨hkept.saved, hkept.untouched⟩ (backAt_label hlabel _ _)
    cases l with
    | header | label | apply =>
      obtain rfl : t' = t.next := hlead
      exact hnext rfl ⟨hkept.saved, hkept.untouched⟩
    | assign dest source =>
      obtain ⟨v, -, rfl⟩ := hlead
      refine hnext ?_ (hkept.assign (hg.spares_line hline hl) v)
      cases dest <;> rfl
    | call target =>
      obtain ⟨regs, hregs, rfl⟩ := hlead
      exact hnext rfl ⟨hkept.saved, fun r hr hnot => (hregs r hr).trans (hkept.untouched r hr hnot)⟩
    | branch positive test target =>
      rcases hlead with rfl | ⟨line, hlabel, heq⟩
      · exact hnext rfl ⟨hkept.saved, hkept.untouched⟩
      · exact hjump line target hlabel heq
    | goto target =>
      obtain ⟨line, hlabel, heq⟩ := hlead
      exact hjump line target hlabel heq
    | ret => exact hlead.elim

/-- **A whole path.** -/
theorem Shielded.path (hg : Guards m header rest code) (h : Shielded m code entry t)
    (hpath : Relation.ReflTransGen (Moves code) t t') : Shielded m code entry t' := by
  induction hpath with
  | refl => exact h
  | tail _ hmove ih => exact ih.move hg hmove

/-- Where the path comes to a line that returns, all registers are back. -/
theorem Shielded.ret (h : Shielded m code entry t) (hret : code[t.line]? = some .ret)
    {r : Register} (hr : r.isCalleeSaved = true) : t.regs r = entry r := by
  cases h with
  | opening hline hregs hsaved => exact hregs r hr
  | inside hline hkept hback =>
    by_cases hmem : r ∈ m.calleeSaved
    · -- nothing is left to be brought back before the line that returns
      obtain ⟨k, hk⟩ := List.mem_iff_getElem?.mp hmem
      obtain ⟨hlt, hget⟩ := List.getElem?_eq_some_iff.mp hret
      have hdone : (restoreLines 0 m.calleeSaved).drop m.calleeSaved.length = [] :=
        List.drop_of_length_le (Nat.le_of_eq (length_restoreLines _ _))
      have hdrop : code.drop t.line
          = (restoreLines 0 m.calleeSaved).drop m.calleeSaved.length ++
            .ret :: code.drop (t.line + 1) := by
        rw [hdone, List.drop_eq_getElem_cons hlt, hget]
        rfl
      exact hback _ _ (Nat.le_refl _) hdrop k r (List.getElem?_eq_some_iff.mp hk).1 hk
    · exact hkept.untouched r hr hmem

end Paths

end Emit

open Machine

/-- **A function leaves the callee-saved registers as it has found them.**  Let a
function be written with any places that are accepted, even if variables disturb one
another.  On every path through its lines from the first one to one that returns, with
conditional jumps taken either way and calls that leave the callee-saved registers and
the local slots alone, all callee-saved registers end up as they were.  No line after
the prologue writes a slot in which the prologue has kept a register, and no line at all
writes a callee-saved register that the prologue has not kept. -/
theorem function_preserves_calleeSaved {α : Type} {fn : Function α} {live : Liveness}
    {registers : List (String × Register)} {slots : List (String × Int)} {m : Allocation}
    (hm : Allocation.ofPlaces registers slots = .ok m) {code : List Line} {pool : Pool}
    {frame : Frame}
    (hlower : (Emit.function fn m live).run Pool.scratch = ⟨code, pool, .ok frame⟩) :
    (∀ {V : Type} (s t : View V), s.line = 0 → Relation.ReflTransGen (Moves code) s t →
      code[t.line]? = some .ret → ∀ r, r.isCalleeSaved = true → t.regs r = s.regs r) ∧
    ∃ prologue body, code = .header fn.name frame :: (prologue ++ body) ∧
      (Emit.prologue fn m live).run Pool.scratch = ⟨prologue, Pool.scratch, .ok ()⟩ ∧
      (∀ l ∈ body, ∀ k < m.calleeSaved.length, l.dest? ≠ some (.localSlot k)) ∧
      ∀ l ∈ code, ∀ r, r.isCalleeSaved = true → l.dest? = some (.register r) →
        ∃ k < m.calleeSaved.length,
          prologue[k]? = some (.assign (.localSlot k) (.value (.register r))) := by
  have hwf := Allocation.wellFormed_of_ofPlaces hm
  have hg := Emit.function_guards hwf hlower
  obtain ⟨hcode, -, hprologue, -⟩ := Emit.function_spec hwf hlower
  obtain rfl := Emit.frame_eq hlower
  refine ⟨fun s t hzero hpath hret r hr => ?_, _, Emit.below fn m live, hcode, hprologue,
    fun l hl k hk hdest => ?_, fun l hl r hr hdest => ?_⟩
  · have hstart : Emit.Shielded m code s.regs s := by
      refine .of_opening (by omega) (fun _ _ => rfl) fun k r hk => ?_
      omega
    exact (hstart.path hg hpath).ret hret hr
  · exact absurd ((Emit.spares_below hwf hl).slots k hdest) (by omega)
  · have hmem : r ∈ m.calleeSaved := by
      rw [hg.code_eq, List.mem_cons, List.mem_append] at hl
      rcases hl with rfl | hl | hl
      · cases hdest
      · obtain ⟨j, q, -, rfl⟩ := Emit.mem_saveLines.mp hl
        cases hdest
      · exact (hg.spares l hl).registers r hdest hr
    obtain ⟨k, hk⟩ := List.mem_iff_getElem?.mp hmem
    have hlt := (List.getElem?_eq_some_iff.mp hk).1
    refine ⟨k, hlt, ?_⟩
    rw [Emit.prologue_lines, List.getElem?_append_left (by rwa [Emit.length_saveLines]),
      Emit.getElem?_saveLines, hk]
    rfl

/-! ### Runs of the machine are paths -/

section Runs

variable {V W : Type} {I : Interp V W} {replies : Nat → Reply V W} {debris : Nat → Debris V}
  {code : List Line}

/-- What a path follows of a state. -/
def Machine.State.view (t : State V W) : View V :=
  ⟨t.line, t.store.regs, t.store.locals⟩

theorem mayBe_eval (I : Interp V W) (t : State V W) (source : Machine.Source) :
    source.MayBe t.view (source.eval I t.store).1 := by
  cases source with
  | value v => cases v <;> first | rfl | trivial
  | localSlot k => rfl
  | inSlot | memory | apply => trivial

theorem view_write (t : State V W) (o : Outside V W) (v : V) (dest : Dest) :
    (⟨t.line + 1, (t.store.setOutside o).write I v dest⟩ : State V W).view
      = t.view.assign dest v := by
  cases dest <;> rfl

theorem getElem?_of_labelled? {name : String} {line : Nat}
    (h : labelled? code name = some line) : code[line]? = some (.label name) := by
  obtain ⟨hlt, hline, -⟩ := List.findIdx?_eq_some_iff_getElem.mp h
  rw [List.getElem?_eq_getElem hlt, beq_iff_eq.mp hline]

/-- A step of a function whose calls are answered from outside is a move. -/
theorem moves_of_openStep {t t' : State V W} {calls calls' : List (Machine.Call V W)}
    (h : openStep I replies debris code (.running t calls) = some (.running t' calls')) :
    Moves code t.view t'.view := by
  obtain ⟨outcome, hexec, h⟩ := Option.bind_eq_some_iff.mp h
  obtain ⟨l, hl, hexec⟩ := Option.bind_eq_some_iff.mp hexec
  refine ⟨l, hl, ?_⟩
  cases l with
  | header | label | apply =>
    obtain rfl := Option.some.inj hexec
    obtain ⟨rfl, -⟩ := Open.running.inj (Option.some.inj h)
    rfl
  | assign dest source =>
    obtain rfl := Option.some.inj hexec
    obtain ⟨rfl, -⟩ := Open.running.inj (Option.some.inj h)
    exact ⟨_, mayBe_eval I t source, view_write t _ _ dest⟩
  | call target =>
    obtain rfl := Option.some.inj hexec
    obtain ⟨rfl, -⟩ := Open.running.inj (Option.some.inj h)
    exact ⟨_, fun r hr => if_pos hr, rfl⟩
  | branch positive test target =>
    obtain ⟨line, hline, rfl⟩ := Option.map_eq_some_iff.mp hexec
    obtain ⟨rfl, -⟩ := Open.running.inj (Option.some.inj h)
    split at hline
    · exact .inr ⟨line, getElem?_of_labelled? hline, rfl⟩
    · obtain rfl := Option.some.inj hline
      exact .inl rfl
  | goto target =>
    obtain ⟨line, hline, rfl⟩ := Option.map_eq_some_iff.mp hexec
    obtain ⟨rfl, -⟩ := Open.running.inj (Option.some.inj h)
    exact ⟨line, getElem?_of_labelled? hline, rfl⟩
  | ret =>
    obtain rfl := Option.some.inj hexec
    cases h

/-- The step that returns is made at a line that does. -/
theorem ret_of_openStep {t : State V W} {calls calls' : List (Machine.Call V W)} {σ : Store V W}
    (h : openStep I replies debris code (.running t calls) = some (.returned σ calls')) :
    code[t.line]? = some .ret ∧ t.store = σ := by
  obtain ⟨outcome, hexec, h⟩ := Option.bind_eq_some_iff.mp h
  obtain ⟨l, hl, hexec⟩ := Option.bind_eq_some_iff.mp hexec
  cases l with
  | ret =>
    obtain rfl := Option.some.inj hexec
    obtain ⟨rfl, -⟩ := Open.returned.inj (Option.some.inj h)
    exact ⟨hl, rfl⟩
  | header | label | apply | assign | call =>
    obtain rfl := Option.some.inj hexec
    cases h
  | branch | goto =>
    obtain ⟨line, -, rfl⟩ := Option.map_eq_some_iff.mp hexec
    cases h

/-- A run that returns is a path to a line that returns. -/
theorem path_of_openSteps {n : Nat} {t : State V W} {calls calls' : List (Machine.Call V W)}
    {σ : Store V W}
    (h : steps (openStep I replies debris code) n (.running t calls) = some (.returned σ calls')) :
    ∃ t', Relation.ReflTransGen (Moves code) t.view t' ∧ code[t'.line]? = some .ret ∧
      t'.regs = σ.regs := by
  induction n generalizing t calls with
  | zero => cases h
  | succ n ih =>
    obtain ⟨c, hstep, hrest⟩ := Option.bind_eq_some_iff.mp h
    cases c with
    | running t₁ calls₁ =>
      obtain ⟨t', hpath, hret, hregs⟩ := ih hrest
      exact ⟨t', .head (moves_of_openStep hstep) hpath, hret, hregs⟩
    | returned σ₁ calls₁ =>
      obtain ⟨hret, rfl⟩ := ret_of_openStep hstep
      cases n with
      | zero =>
        obtain ⟨rfl, -⟩ := Open.returned.inj (Option.some.inj hrest)
        exact ⟨t.view, .refl, hret, rfl⟩
      | succ n => cases hrest

end Runs

namespace Sample

/-- Places that are not kept apart: two variables share a register that the function
has to keep, and the others share a slot. -/
def crowded : Allocation :=
  ⟨[("n", saved), ("a", saved)], [("b", 1), ("c", 1), ("d", 1)]⟩

/-- A store on entry, with anything in the callee-saved registers. -/
def onEntry (kept : Register → Int) : Store Int Unit where
  regs r := if r.isCalleeSaved then kept r else 7
  ins _ := 7
  outs _ := 0
  locals _ := 0
  outside := ⟨(), []⟩

/-- The reply to every call. -/
def reply (_ : Nat) : Reply Int Unit :=
  ⟨0, ⟨(), []⟩⟩

/-- What every call leaves behind. -/
def debris (_ : Nat) : Debris Int :=
  ⟨fun _ => 5, fun _ => 5, fun _ => 5⟩

end Sample

theorem function_preserves_calleeSaved_sample :
    ∃ live code frame, Sample.function.liveness = .ok live ∧
      (Emit.function Sample.function Sample.crowded live).run Pool.scratch
        = ⟨code, Pool.scratch, .ok frame⟩ ∧
      ∀ kept : Register → Int, ∃ k σ calls,
        steps (openStep Sample.interp Sample.reply Sample.debris code) k
          (.running ⟨0, Sample.onEntry kept⟩ []) = some (.returned σ calls) ∧
        calls.length = 1 ∧ ∀ r, r.isCalleeSaved = true → σ.regs r = kept r := by
  have hm : Allocation.ofPlaces Sample.crowded.registers [("b", 1), ("c", 1), ("d", 1)]
      = .ok Sample.crowded := rfl
  -- down to the call, back to the label, and out of the loop
  obtain ⟨live, code, frame, hlive, hlower, hrun⟩ : ∃ live code frame,
      Sample.function.liveness = .ok live ∧
      (Emit.function Sample.function Sample.crowded live).run Pool.scratch
        = ⟨code, Pool.scratch, .ok frame⟩ ∧
      ∀ kept, ∃ σ calls,
        steps (openStep Sample.interp Sample.reply Sample.debris code) 25
          (.running ⟨0, Sample.onEntry kept⟩ []) = some (.returned σ calls) ∧
        calls.length = 1 :=
    ⟨_, _, _, rfl, rfl, fun kept => ⟨_, _, rfl, rfl⟩⟩
  refine ⟨live, code, frame, hlive, hlower, fun kept => ?_⟩
  obtain ⟨σ, calls, hsteps, hcalls⟩ := hrun kept
  obtain ⟨t, hpath, hret, hregs⟩ := path_of_openSteps hsteps
  refine ⟨25, σ, calls, hsteps, hcalls, fun r hr => ?_⟩
  rw [← hregs, (function_preserves_calleeSaved hm hlower).1 _ t rfl hpath hret r hr]
  exact if_pos hr

end Vapor
