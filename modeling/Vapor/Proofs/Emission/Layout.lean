/-
Vapor/Proofs/Emission/Layout.lean

How the lines of a function are laid out: the header and the prologue, then for each
instruction its labels and its group of lines, then the labels at the end.  A place
in the code is known by what remains from there on (`remaining`), so that nothing
has to be counted.  No label stands inside a group, so a jump to a label leads to the
group of the instruction that the label stands before (`labelled?_code`).
-/
import Vapor.Proofs.Emission.Instr
import Vapor.Proofs.Emission.Lines
import Vapor.Proofs.Emission.Success
import Vapor.Proofs.Liveness.Exact

namespace Vapor

/-! ### Labels -/

namespace Function

variable {α : Type} {fn : Function α}

theorem mem_labelsAt {name : String} {index : Int} :
    name ∈ fn.labelsAt index ↔ ∃ l ∈ fn.labels, l.name = name ∧ l.index = index := by
  simp only [labelsAt, List.mem_eraseDups, List.mem_map, List.mem_filter, beq_iff_eq]
  constructor
  · rintro ⟨l, ⟨hl, hindex⟩, hname⟩
    exact ⟨l, hl, hname, hindex⟩
  · rintro ⟨l, hl, hname, hindex⟩
    exact ⟨l, ⟨hl, hindex⟩, hname⟩

/-- A label stands at one place only. -/
theorem WellFormed.index_unique (hwf : fn.WellFormed) {name : String} {i j : Int}
    (hi : name ∈ fn.labelsAt i) (hj : name ∈ fn.labelsAt j) : i = j := by
  obtain ⟨l, hl, hln, rfl⟩ := mem_labelsAt.mp hi
  obtain ⟨l', hl', hln', rfl⟩ := mem_labelsAt.mp hj
  rw [List.inj_on_of_nodup_map hwf.labels_nodup hl hl' (hln.trans hln'.symm)]

theorem labelled?_eq_some {name : String} {index : Nat} (h : fn.labelled? name = some index) :
    fn.indexOf? name = some (index : Int) := by
  obtain ⟨i, hi, h⟩ := Option.bind_eq_some_iff.mp h
  rw [hi, Int.mem_toNat?.mp h]

theorem WellFormed.labelled?_le (hwf : fn.WellFormed) {name : String} {index : Nat}
    (h : fn.labelled? name = some index) : index ≤ fn.body.length := by
  obtain ⟨i, hi, hle⟩ := hwf.indexOf? (labelled?_eq_some h)
  rwa [Int.ofNat_inj.mp hi]

end Function

namespace Emit

open Machine

/-! ### The parts of a function -/

variable {α : Type}

/-- The lines for the instruction with this index. -/
def group (m : Allocation) (live : Liveness) (index : Nat) (i : Instr α) : List Line :=
  (instr m (i.kept m live index) i Pool.scratch).lines

/-- The lines of the given instructions, which begin at this index, without the
labels before the first of them. -/
def groups (fn : Function α) (m : Allocation) (live : Liveness) :
    Nat → List (Instr α) → List Line
  | _, [] => []
  | index, i :: rest =>
    group m live index i ++ (labelLines fn (index + 1) ++ groups fn m live (index + 1) rest)

/-- What remains of the lines of a function from the instruction with this index on. -/
def remaining (fn : Function α) (m : Allocation) (live : Liveness) (index : Nat) : List Line :=
  groups fn m live index (fn.body.drop index)

/-- The lines before the labels of the first instruction. -/
def head (fn : Function α) (m : Allocation) (live : Liveness) : List Line :=
  .header fn.name (fn.frame m live) :: (prologue fn m live Pool.scratch).lines

variable {fn : Function α} {m : Allocation} {live : Liveness} {pool' : Pool} {ls : List Line}

theorem remaining_eq {index : Nat} {i : Instr α} (hi : fn.body[index]? = some i) :
    remaining fn m live index
      = group m live index i ++ (labelLines fn (index + 1) ++ remaining fn m live (index + 1)) := by
  obtain ⟨hlt, rfl⟩ := List.getElem?_eq_some_iff.mp hi
  rw [remaining, List.drop_eq_getElem_cons hlt]
  rfl

theorem gives_settled {name : String} {index : Nat} {pool : Pool} {b : Unit} :
    (settled name index : Gen α Unit).Gives pool ls pool' b ↔
      pool.isIdle = true ∧ ls = [] ∧ pool' = pool := by
  unfold settled
  rw [gives_bind]
  constructor
  · rintro ⟨now, _, _, _, h₁, h₂, rfl⟩
    obtain ⟨rfl, rfl, rfl⟩ := gives_now.mp h₁
    split at h₂
    · rename_i hidle
      obtain ⟨rfl, rfl, -⟩ := gives_pure.mp h₂
      exact ⟨hidle, rfl, rfl⟩
    · exact (gives_fail.mp h₂).elim
  · rintro ⟨hidle, rfl, rfl⟩
    refine ⟨pool', pool', [], [], gives_now.mpr ⟨rfl, rfl, rfl⟩, ?_, rfl⟩
    rw [if_pos hidle]
    exact gives_pure.mpr ⟨rfl, rfl, rfl⟩

/-- Every instruction begins and ends with all scratch registers free. -/
theorem body_spec (hm : m.WellFormed) {index : Nat} {instrs : List (Instr α)} {b : Unit}
    (h : (body fn m live index instrs).Gives Pool.scratch ls pool' b) :
    ls = labelLines fn index ++ groups fn m live index instrs ∧ pool' = Pool.scratch ∧
      ∀ j i, instrs[j]? = some i → (instr m (i.kept m live (index + j)) i).Gives Pool.scratch
        (group m live (index + j) i) Pool.scratch () := by
  induction instrs generalizing index ls with
  | nil =>
    obtain ⟨rfl, rfl⟩ := gives_lines.mp h
    exact ⟨by rw [groups, List.append_nil], rfl, fun j i hj => by simp at hj⟩
  | cons i instrs ih =>
    obtain ⟨_, _, _, _, h₁, h₂, rfl⟩ := gives_bind.mp h
    obtain ⟨rfl, rfl⟩ := gives_lines.mp h₁
    obtain ⟨_, _, ls₁, _, h₃, h₄, rfl⟩ := gives_bind.mp h₂
    obtain ⟨_, pool₁, _, _, h₅, h₆, rfl⟩ := gives_bind.mp h₄
    obtain ⟨hidle, rfl, rfl⟩ := gives_settled.mp h₅
    obtain rfl : pool₁ = Pool.scratch :=
      (instr_ready hm Pool.ready_scratch h₃).eq_scratch hidle
    obtain ⟨rfl, rfl, hrest⟩ := ih h₆
    obtain rfl : group m live index i = ls₁ := congrArg Emission.lines h₃
    refine ⟨rfl, rfl, fun j i' hj => ?_⟩
    cases j with
    | zero =>
      obtain rfl : i = i' := Option.some.inj hj
      exact h₃
    | succ j =>
      rw [show index + (j + 1) = index + 1 + j by omega]
      exact hrest j i' hj

/-- **The layout of a function.** -/
theorem function_spec (hm : m.WellFormed) {frame : Frame}
    (h : (function fn m live).Gives Pool.scratch ls pool' frame) :
    ls = head fn m live ++ (labelLines fn 0 ++ remaining fn m live 0) ∧ pool' = Pool.scratch ∧
      (prologue fn m live).Gives Pool.scratch (prologue fn m live Pool.scratch).lines
        Pool.scratch () ∧
      ∀ index i, fn.body[index]? = some i → (instr m (i.kept m live index) i).Gives Pool.scratch
        (group m live index i) Pool.scratch () := by
  obtain ⟨_, _, _, _, h₁, h₂, rfl⟩ := gives_bind.mp h
  obtain ⟨rfl, rfl⟩ := gives_line.mp h₁
  obtain ⟨_, pool₁, ls₁, _, h₃, h₄, rfl⟩ := gives_bind.mp h₂
  obtain ⟨_, _, ls₂, _, h₅, h₆, rfl⟩ := gives_bind.mp h₄
  obtain ⟨rfl, rfl, -⟩ := gives_pure.mp h₆
  obtain rfl : pool₁ = Pool.scratch := by
    obtain ⟨ls', hlead⟩ := leads_prologue fn m live
    exact congrArg Emission.pool (h₃.symm.trans hlead)
  obtain ⟨rfl, rfl, hbody⟩ := body_spec hm h₅
  obtain rfl : (prologue fn m live Pool.scratch).lines = ls₁ := congrArg Emission.lines h₃
  refine ⟨by rw [List.append_nil]; rfl, rfl, h₃, fun index i hi => ?_⟩
  have hgroup := hbody index i hi
  rwa [Nat.zero_add] at hgroup

theorem frame_eq {pool : Pool} {frame : Frame}
    (h : (function fn m live).Gives pool ls pool' frame) : frame = fn.frame m live := by
  obtain ⟨_, _, _, _, -, h₁, -⟩ := gives_bind.mp h
  obtain ⟨_, _, _, _, -, h₂, -⟩ := gives_bind.mp h₁
  obtain ⟨_, _, _, _, -, h₃, -⟩ := gives_bind.mp h₂
  exact (gives_pure.mp h₃).2.2

/-! ### The lines of a function -/

/-- The lines that bring the parameters to their places. -/
def arrivals (fn : Function α) (m : Allocation) (live : Liveness) : List Line :=
  (params m live 0 fn.params Pool.scratch).lines

theorem prologue_lines (fn : Function α) (m : Allocation) (live : Liveness) :
    (prologue fn m live Pool.scratch).lines
      = saveLines 0 m.calleeSaved ++ arrivals fn m live := by
  rfl

theorem arriving_of_mem_arrivals {l : Line} (h : l ∈ arrivals fn m live) :
    Arriving m fn.params l :=
  (keeps_params (by rfl) Pool.scratch Pool.ready_scratch).1 l h

theorem written_of_mem_group (hm : m.WellFormed) {index : Nat} {i : Instr α} {l : Line}
    (h : l ∈ group m live index i) : Written m (i.kept m live index) i l :=
  (keeps_instr hm _ i Pool.scratch Pool.ready_scratch).1 l h

/-- The lines after the prologue are labels, or belong to an instruction. -/
theorem mem_groups {index : Nat} {instrs : List (Instr α)} {l : Line}
    (h : l ∈ groups fn m live index instrs) :
    (∃ name, l = .label name) ∨
      ∃ j i, instrs[j]? = some i ∧ l ∈ group m live (index + j) i := by
  induction instrs generalizing index with
  | nil => cases h
  | cons i instrs ih =>
    rw [groups, List.mem_append, List.mem_append] at h
    rcases h with h | h | h
    · exact .inr ⟨0, i, rfl, h⟩
    · obtain ⟨name, -, rfl⟩ := List.mem_map.mp h
      exact .inl ⟨name, rfl⟩
    · rcases ih h with hlabel | ⟨j, i', hj, hmem⟩
      · exact .inl hlabel
      · refine .inr ⟨j + 1, i', hj, ?_⟩
        rwa [show index + (j + 1) = index + 1 + j by omega]

/-- The lines below the prologue. -/
def below (fn : Function α) (m : Allocation) (live : Liveness) : List Line :=
  labelLines fn 0 ++ remaining fn m live 0

theorem mem_below {l : Line} (h : l ∈ below fn m live) :
    (∃ name, l = .label name) ∨
      ∃ index i, fn.body[index]? = some i ∧ l ∈ group m live index i := by
  rcases List.mem_append.mp h with h | h
  · obtain ⟨name, -, rfl⟩ := List.mem_map.mp h
    exact .inl ⟨name, rfl⟩
  · refine (mem_groups h).imp_right ?_
    rintro ⟨j, i, hj, hmem⟩
    exact ⟨j, i, hj, by rwa [Nat.zero_add] at hmem⟩

/-! ### Jumps -/

/-- The code of a function, divided before the labels of an instruction.  Labels in
the first part stand for earlier instructions. -/
theorem code_split (hm : m.WellFormed) (fn : Function α) (live : Liveness) {index : Nat}
    (hle : index ≤ fn.body.length) :
    ∃ before, head fn m live ++ (labelLines fn 0 ++ remaining fn m live 0)
        = before ++ (labelLines fn index ++ remaining fn m live index) ∧
      ∀ name, Line.label name ∈ before → ∃ k : Nat, k < index ∧ name ∈ fn.labelsAt k := by
  induction index with
  | zero =>
    refine ⟨head fn m live, rfl, fun name hname => ?_⟩
    rcases List.mem_cons.mp hname with hname | hname
    · cases hname
    · rw [prologue_lines, List.mem_append] at hname
      rcases hname with hname | hname
      · obtain ⟨j, r, -, hline⟩ := mem_saveLines.mp hname
        cases hline
      · cases arriving_of_mem_arrivals hname
  | succ index ih =>
    obtain ⟨before, heq, hlabels⟩ := ih (by omega)
    have hi := List.getElem?_eq_getElem (show index < fn.body.length by omega)
    refine ⟨before ++ (labelLines fn index ++ group m live index fn.body[index]), ?_, ?_⟩
    · rw [heq, remaining_eq hi]
      simp only [List.append_assoc]
    · intro name hname
      rw [List.mem_append, List.mem_append] at hname
      rcases hname with hname | hname | hname
      · obtain ⟨k, hk, hmem⟩ := hlabels name hname
        exact ⟨k, by omega, hmem⟩
      · obtain ⟨name', hmem, heq'⟩ := List.mem_map.mp hname
        rw [← Line.label.inj heq']
        exact ⟨index, by omega, hmem⟩
      · exact absurd rfl ((written_of_mem_group hm hname).ne_label name)

/-- A jump to a label leads to the instruction that the label stands before; at most
other labels lie between. -/
theorem labelled?_code (hm : m.WellFormed) (hwf : fn.WellFormed) {name : String} {index : Nat}
    (h : fn.labelled? name = some index) {code : List Line}
    (hcode : code = head fn m live ++ (labelLines fn 0 ++ remaining fn m live 0)) :
    ∃ line, ∃ names : List String, labelled? code name = some line ∧
      code.drop line = names.map .label ++ remaining fn m live index := by
  obtain ⟨before, heq, hlabels⟩ := code_split hm fn live (hwf.labelled?_le h)
  rw [heq] at hcode
  have hmem : name ∈ fn.labelsAt index := by
    obtain ⟨l, hl, hln, hli⟩ := Function.indexOf?_spec (Function.labelled?_eq_some h)
    exact Function.mem_labelsAt.mpr ⟨l, hl, hln, hli⟩
  have hbefore : before.findIdx? (fun l => l == .label name) = none := by
    refine List.findIdx?_eq_none_iff.mpr fun l hl => beq_eq_false_iff_ne.mpr ?_
    rintro rfl
    obtain ⟨k, hk, hk'⟩ := hlabels name hl
    have := Int.ofNat_inj.mp (hwf.index_unique hk' hmem)
    omega
  obtain ⟨j, hj⟩ : ∃ j, (labelLines fn index).findIdx? (fun l => l == .label name) = some j := by
    refine Option.isSome_iff_exists.mp ?_
    rw [List.findIdx?_isSome, List.any_eq_true]
    exact ⟨.label name, List.mem_map_of_mem hmem, beq_self_eq_true _⟩
  have hlt : j < (labelLines fn index).length :=
    (List.findIdx?_eq_some_iff_findIdx_eq.mp hj).1
  refine ⟨j + before.length, (fn.labelsAt index).drop j, ?_, ?_⟩
  · rw [hcode, labelled?, List.findIdx?_append, hbefore, List.findIdx?_append, hj]
    rfl
  · rw [hcode, Nat.add_comm, ← List.drop_drop, List.drop_left,
      List.drop_append_of_le_length (by omega), List.map_drop]
    rfl

end Emit

end Vapor
