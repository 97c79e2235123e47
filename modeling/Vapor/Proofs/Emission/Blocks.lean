/-
Vapor/Proofs/Emission/Blocks.lean

A function on a sheet of text, line by line (`function_blocks`).  The header stands at the
margin and the prologue below it, one level deeper.  Then comes a block for each instruction:
its labels at the margin, in the order in which the function lists them, and its lines one
level deeper, at least one.  The labels of the end close the function.

Every label stands on one line only, and what passes control on belongs to an instruction of
the same kind (`InKind`): a jump is among the lines of a jump to the same label, a call among
those of a call and a return among those of a return.
-/
import Vapor.Proofs.Emission.Levels
import Vapor.Proofs.Emission.Reserved

namespace Vapor

open Machine Text

variable {α : Type}

/-! ### Labels -/

theorem eraseDups_of_nodup {names : List String} (h : names.Nodup) : names.eraseDups = names := by
  induction names with
  | nil => rfl
  | cons name names ih =>
    obtain ⟨hname, hnames⟩ := List.nodup_cons.mp h
    have hfilter : names.filter (fun b => !b == name) = names := by
      refine List.filter_eq_self.mpr fun b hb => ?_
      rw [Bool.not_eq_true', beq_eq_false_iff_ne]
      rintro rfl
      exact hname hb
    rw [List.eraseDups_cons, hfilter, ih hnames]

namespace Function

variable {fn : Function α}

theorem WellFormed.nodup_at (hwf : fn.WellFormed) (index : Int) :
    ((fn.labels.filter fun l => l.index == index).map Label.name).Nodup :=
  hwf.labels_nodup.sublist (List.filter_sublist.map Label.name)

/-- No label before an instruction is left out as a repetition. -/
theorem WellFormed.labelsAt_eq (hwf : fn.WellFormed) (index : Int) :
    fn.labelsAt index = (fn.labels.filter fun l => l.index == index).map Label.name :=
  eraseDups_of_nodup (hwf.nodup_at index)

end Function

namespace Emit

variable {m : Allocation} {live : Liveness} {fn : Function α} {kept : List Register}

/-! ### Lines and their instructions -/

/-- The lines that may stand among those of an instruction, as far as control goes: none of
them is a header or a label, and only an instruction of the same kind passes control on. -/
inductive InKind : Instr α → Line → Prop where
  | assign {i : Instr α} (dest : Dest) (source : Source) : InKind i (.assign dest source)
  | apply {dest : Option (Ref α)} {op : String} {args : List (Operand α)} {note : α}
      (vs : List Value) : InKind (.apply dest op args note) (.apply op vs)
  | goto {target : Ref α} {note : α} : InKind (.goto target note) (.goto target.name)
  | branch {test : Operand α} {positive : Bool} {target : Ref α} {note : α} (v : Value) :
      InKind (.branch test positive target note) (.branch positive v target.name)
  | call {dest : Option (Ref α)} {callee : Callee α} {args : List (Operand α)} {note : α}
      (target : Target) : InKind (.call dest callee args note) (.call target)
  | ret {value : Option (Operand α)} {note : α} : InKind (.ret value note) .ret

theorem Written.inKind {i : Instr α} {l : Line} (h : Written m kept i l) : InKind i l := by
  cases h with
  | fetch | putBack | assign | keep | passVar | passLiteral | passSlot | result | restore
  | applyTo | store | load | value | unsave => exact .assign _ _
  | apply => exact .apply _
  | callLabel | callVar => exact .call _
  | branch => exact .branch _
  | goto => exact .goto
  | ret => exact .ret

theorem InKind.depth {i : Instr α} {l : Line} (h : InKind i l) : l.depth = 1 := by
  cases h <;> rfl

/-- Before the instructions there are assignments only. -/
theorem assign_of_mem_prologue {l : Line} (h : l ∈ (prologue fn m live Pool.scratch).lines) :
    ∃ dest source, l = .assign dest source := by
  rw [prologue_lines, List.mem_append] at h
  rcases h with h | h
  · obtain ⟨j, r, -, rfl⟩ := mem_saveLines.mp h
    exact ⟨_, _, rfl⟩
  · cases arriving_of_mem_arrivals h <;> exact ⟨_, _, rfl⟩

/-! ### Groups with at least one line -/

section Writes

variable {ε β γ : Type}

/-- Whenever the generator succeeds, it has written a line. -/
def Writes (g : Emit ε β) : Prop :=
  ∀ (pool : Pool) (ls : List Line) (pool' : Pool) (b : β), g.Gives pool ls pool' b → ls ≠ []

theorem writes_line (l : Line) : Writes (line l : Emit ε Unit) := by
  intro pool ls pool' b h
  rw [(gives_line.mp h).1]
  exact List.cons_ne_nil _ _

theorem writes_assign (dest : Dest) (source : Source) : Writes (assign dest source : Emit ε Unit) :=
  writes_line _

theorem Writes.first {g : Emit ε β} {f : β → Emit ε γ} (hg : Writes g) : Writes (g >>= f) := by
  intro pool ls pool' b h
  obtain ⟨_, _, _, _, h₁, -, rfl⟩ := gives_bind.mp h
  exact List.append_ne_nil_of_left_ne_nil (hg _ _ _ _ h₁) _

theorem Writes.after {g : Emit ε β} {f : β → Emit ε γ} (hf : ∀ b, Writes (f b)) :
    Writes (g >>= f) := by
  intro pool ls pool' b h
  obtain ⟨_, _, _, _, -, h₂, rfl⟩ := gives_bind.mp h
  exact List.append_ne_nil_of_right_ne_nil _ (hf _ _ _ _ _ h₂)

end Writes

theorem writes_define (x : Ref α) (source : Source) : Writes (define m x source) :=
  .after fun _ => (writes_assign _ _).first

theorem writes_transfer (callee : Callee α) : Writes (transfer m callee) := by
  cases callee with
  | label f => exact writes_line _
  | var x => exact .after fun _ => (writes_line _).first

/-- **An instruction is never without lines.** -/
theorem writes_instr (i : Instr α) : Writes (instr m kept i) := by
  cases i with
  | assign => exact .after fun _ => .after fun _ => (writes_assign _ _).first
  | call dest callee =>
    exact .after fun _ => .after fun _ => (writes_transfer callee).first
  | apply dest =>
    refine .after fun vs => ?_
    cases dest with
    | none => exact (writes_line _).first
    | some x => exact (writes_define x _).first
  | store | load => exact .after fun _ => .after fun _ => (writes_assign _ _).first
  | branch => exact .after fun _ => (writes_line _).first
  | goto => exact writes_line _
  | ret value =>
    have hleave : Writes (lines (restoreLines 0 m.calleeSaved) >>= fun _ => line .ret : Gen α Unit) :=
      .after fun _ => writes_line _
    cases value with
    | none => exact hleave
    | some o => exact .after fun _ => .after fun _ => .after fun _ => hleave

/-! ### Blocks -/

theorem labelLines_append_groups (fn : Function α) (m : Allocation) (live : Liveness) (index : Nat)
    (instrs : List (Instr α)) :
    labelLines fn index ++ groups fn m live index instrs
      = ((instrs.zipIdx index).flatMap fun x => labelLines fn x.2 ++ group m live x.2 x.1) ++
        labelLines fn (index + instrs.length) := by
  induction instrs generalizing index with
  | nil => rw [groups, List.append_nil]; rfl
  | cons i instrs ih =>
    rw [groups, ih (index + 1), List.zipIdx_cons, List.flatMap_cons, List.length_cons,
      show index + 1 + instrs.length = index + (instrs.length + 1) by omega]
    simp only [List.append_assoc]

/-- A label is on one line if it stands at this index, and on none otherwise. -/
theorem count_labelLines (hwf : fn.WellFormed) {l : Label α} (hl : l ∈ fn.labels) (index : Nat) :
    (labelLines fn index).count (.label l.name) = if l.index = index then 1 else 0 := by
  have hinj : Function.Injective Line.label := fun _ _ h => Line.label.inj h
  have hmem : l.name ∈ fn.labelsAt index ↔ l.index = index := by
    refine ⟨fun h => ?_, fun h => Function.mem_labelsAt.mpr ⟨l, hl, rfl, h⟩⟩
    exact hwf.index_unique (Function.mem_labelsAt.mpr ⟨l, hl, rfl, rfl⟩) h
  have hnodup : (fn.labelsAt index).Nodup := hwf.labelsAt_eq index ▸ hwf.nodup_at index
  rw [labelLines, List.count_map_of_injective _ _ hinj, hnodup.count]
  simp only [hmem]

/-- A label is on one line if it stands at an index from the given one on. -/
theorem count_groups (hm : m.WellFormed) (hwf : fn.WellFormed) {l : Label α} (hl : l ∈ fn.labels)
    (index : Nat) (instrs : List (Instr α)) :
    (labelLines fn index ++ groups fn m live index instrs).count (.label l.name)
      = if (index : Int) ≤ l.index ∧ l.index ≤ index + instrs.length then 1 else 0 := by
  induction instrs generalizing index with
  | nil =>
    rw [groups, List.append_nil, count_labelLines hwf hl]
    simp only [List.length_nil]
    split <;> split <;> omega
  | cons i instrs ih =>
    have hgroup : (group m live index i).count (.label l.name) = 0 :=
      List.count_eq_zero.mpr fun h => (written_of_mem_group hm h).ne_label l.name rfl
    rw [groups, List.count_append, List.count_append, ih (index + 1), hgroup,
      count_labelLines hwf hl, List.length_cons]
    push_cast
    split <;> split <;> split <;> omega

/-- **A label stands on one line only.** -/
theorem count_label (hm : m.WellFormed) (hwf : fn.WellFormed) {l : Label α} (hl : l ∈ fn.labels) :
    (head fn m live ++ below fn m live).count (.label l.name) = 1 := by
  have hhead : (head fn m live).count (.label l.name) = 0 := by
    refine List.count_eq_zero.mpr fun h => ?_
    rcases List.mem_cons.mp h with h | h
    · cases h
    · obtain ⟨dest, source, h⟩ := assign_of_mem_prologue h
      cases h
  obtain ⟨i, hi, hle⟩ := hwf.label_index l hl
  rw [List.count_append, hhead, below, remaining, count_groups hm hwf hl, hi]
  rw [if_pos]
  exact ⟨by omega, by rw [List.drop_zero]; omega⟩

end Emit

/-! ### On a sheet -/

theorem Machine.Line.render_ne_empty (l : Line) : l.render ≠ "" := by
  cases l <;>
    simp [render, Machine.header, labelLine, assignment, application, branchLine, toString]

/-- How a line of a function stands on a sheet. -/
theorem written_render (unit : String) (level : Nat) (l : Line) :
    Sheet.written unit level l.render = Sheet.indentation unit level ++ l.render := by
  rw [Sheet.written, String.isEmpty_eq_false_iff.mpr l.render_ne_empty]
  rfl

namespace Emit

/-- A function as it stands on a sheet of text whose level is that of its margin. -/
def page (fn : Function α) (m : Allocation) (live : Liveness) (frame : Frame) (unit : String)
    (level : Nat) : List String :=
  let margin := Sheet.indentation unit level
  let inner := Sheet.indentation unit (level + 1)
  let labels (index : Nat) : List String :=
    (fn.labels.filter fun l => l.index == (index : Int)).map fun l => margin ++ (l.name ++ ":")
  [margin ++ (Line.header fn.name frame).render] ++
    (prologue fn m live Pool.scratch).lines.map (fun l => inner ++ l.render) ++
    (fn.body.zipIdx.flatMap fun x =>
      labels x.2 ++ (group m live x.2 x.1).map fun l => inner ++ l.render) ++
    labels fn.body.length

variable {m : Allocation} {live : Liveness} {fn : Function α} {unit : String} {level : Nat}

/-- Labels stand at the margin. -/
theorem map_labelLines (hwf : fn.WellFormed) (index : Nat) :
    (labelLines fn index).map (fun l => Sheet.written unit (level + l.depth) l.render)
      = (fn.labels.filter fun l => l.index == (index : Int)).map fun l =>
        Sheet.indentation unit level ++ (l.name ++ ":") := by
  rw [labelLines, hwf.labelsAt_eq, List.map_map, List.map_map]
  exact List.map_congr_left fun l _ => written_render unit level (.label l.name)

/-- Lines of depth one stand one level deeper. -/
theorem map_inner {ls : List Line} (h : ∀ l ∈ ls, l.depth = 1) :
    ls.map (fun l => Sheet.written unit (level + l.depth) l.render)
      = ls.map fun l => Sheet.indentation unit (level + 1) ++ l.render :=
  List.map_congr_left fun l hl => by rw [h l hl, written_render]

/-- **The lines of a function on a sheet.** -/
theorem map_code (hm : m.WellFormed) (hwf : fn.WellFormed) :
    (head fn m live ++ below fn m live).map
        (fun l => Sheet.written unit (level + l.depth) l.render)
      = page fn m live (fn.frame m live) unit level := by
  have hprologue : ∀ l ∈ (prologue fn m live Pool.scratch).lines, l.depth = 1 := by
    intro l hl
    obtain ⟨dest, source, rfl⟩ := assign_of_mem_prologue hl
    rfl
  have hgroup : ∀ x : Instr α × Nat, ∀ l ∈ group m live x.2 x.1, l.depth = 1 :=
    fun x l hl => (written_of_mem_group hm hl).inKind.depth
  have hblocks := labelLines_append_groups fn m live 0 fn.body
  rw [Nat.zero_add] at hblocks
  rw [below, remaining, List.drop_zero, hblocks, head, page]
  simp only [List.map_append, List.map_cons, List.map_flatMap, map_labelLines hwf,
    map_inner hprologue, map_inner (hgroup _)]
  rw [written_render]
  simp only [List.cons_append, List.nil_append, List.append_assoc]
  rfl

end Emit

/-- **The blocks of a function.**  Let a function be read from tokens, let its variables have
places, and let it be written on a sheet with no unfinished line.  Then nothing but its page is
added to the sheet, also if the level is changed step by step.  On the page each instruction has
at least one line, and only lines of its own kind; the prologue has assignments only.  Every
label of the function stands on exactly one line. -/
theorem function_blocks {tokens : List Token} {p : Program Span} (hparse : parse tokens = .ok p)
    {fn : Function Span} (hfn : fn ∈ p.functions) {live : Liveness}
    {registers : List (String × Register)} {slots : List (String × Int)} {m : Allocation}
    (hm : Allocation.ofPlaces registers slots = .ok m) {code : List Line} {pool : Pool}
    {frame : Frame}
    (hlower : (Emit.function fn m live).run Pool.scratch = ⟨code, pool, .ok frame⟩)
    {s : Sheet} (hs : s.pending = "") :
    s.writeEmission ((Emit.function fn m live).run Pool.scratch)
        = { s with lines := s.lines ++ Emit.page fn m live frame s.unit s.level } ∧
      s.writeEmission? ((Emit.function fn m live).run Pool.scratch)
        = some { s with lines := s.lines ++ Emit.page fn m live frame s.unit s.level } ∧
      (∀ l ∈ (Emit.prologue fn m live Pool.scratch).lines, ∃ dest source, l = .assign dest source) ∧
      (∀ index i, fn.body[index]? = some i →
        Emit.group m live index i ≠ [] ∧ ∀ l ∈ Emit.group m live index i, Emit.InKind i l) ∧
      ∀ l ∈ fn.labels, code.count (.label l.name) = 1 := by
  have hwell := Allocation.wellFormed_of_ofPlaces hm
  have hwf := parse_wellFormed hparse fn hfn
  obtain ⟨hcode, -, -, hgroups⟩ := Emit.function_spec hwell hlower
  obtain rfl := Emit.frame_eq hlower
  have hwrite : s.writeEmission ((Emit.function fn m live).run Pool.scratch)
      = { s with lines := s.lines ++ Emit.page fn m live (fn.frame m live) s.unit s.level } := by
    rw [hlower, Sheet.writeEmission_eq hs rfl, ← Emit.map_code hwell hwf, hcode]
    rfl
  obtain ⟨rest, hlines, hrest⟩ := Emit.function_header hwell fn live
  refine ⟨hwrite, ?_, fun l hl => Emit.assign_of_mem_prologue hl, fun index i hi => ⟨?_, ?_⟩, ?_⟩
  · exact (Sheet.writeEmission?_eq s hlines hrest).trans (congrArg some hwrite)
  · exact Emit.writes_instr i _ _ _ _ (hgroups index i hi)
  · exact fun l hl => (Emit.written_of_mem_group hwell hl).inKind
  · intro l hl
    rw [hcode]
    exact Emit.count_label hwell hwf hl

theorem function_blocks_sample :
    ∃ live code frame, Sample.function.liveness = .ok live ∧
      (Emit.function Sample.function Sample.inSlots live).run Pool.scratch
        = ⟨code, Pool.scratch, .ok frame⟩ ∧
      Sheet.writeEmission ⟨"\t", 2, ["first"], ""⟩
          ((Emit.function Sample.function Sample.inSlots live).run Pool.scratch)
        = ⟨"\t", 2, "first" :: Emit.page Sample.function Sample.inSlots live frame "\t" 2, ""⟩ ∧
      (∀ index i, Sample.function.body[index]? = some i →
        Emit.group Sample.inSlots live index i ≠ [] ∧
          ∀ l ∈ Emit.group Sample.inSlots live index i, Emit.InKind i l) ∧
      code.count (.label "loop") = 1 ∧ code.count (.label "end") = 1 := by
  have hm : Allocation.ofPlaces [] [("n", 0), ("a", 1), ("b", 2), ("c", 3), ("d", 4)]
      = .ok Sample.inSlots := rfl
  obtain ⟨live, code, frame, hlive, hlower⟩ : ∃ live code frame,
      Sample.function.liveness = .ok live ∧
      (Emit.function Sample.function Sample.inSlots live).run Pool.scratch
        = ⟨code, Pool.scratch, .ok frame⟩ := ⟨_, _, _, rfl, rfl⟩
  obtain ⟨hpage, -, -, hgroups, hlabels⟩ := function_blocks Sample.parse_tokens
    Sample.mem_functions hm hlower (s := ⟨"\t", 2, ["first"], ""⟩) rfl
  have hloop := hlabels ⟨"loop", 0, Sample.span⟩ List.mem_cons_self
  have hend := hlabels ⟨"end", 4, Sample.span⟩ (List.mem_cons_of_mem _ List.mem_cons_self)
  exact ⟨live, code, frame, hlive, hlower, hpage, hgroups, hloop, hend⟩

end Vapor
