/-
Vapor/Proofs/Emission/Levels.lean

The indentation never falls below zero.  A program is written with the level of each
line computed from its depth.  Here it is written once more with the level changed step
by step: a segment and a function open a level and close it at the end, and labels stand
one level less deep.  To leave a level that was never entered is a failure (`shallower?`).
It does not happen, and the sheet is the same (`writeProgram?_eq`), because the header
comes first among the lines of a function and no other header follows.
-/
import Vapor.Proofs.Emission.Layout
import Vapor.Proofs.Emission.Text

namespace Vapor

open Text Machine

variable {α ε β : Type}

/-! ### Level by level -/

namespace Text.Sheet

/-- Writes a line of a function.  The header opens a level; a label stands outside it. -/
def put? (s : Sheet) (l : Line) : Option Sheet :=
  match l with
  | .header _ _ => some (s.writeLine l.render).deeper
  | .label _ => s.shallower?.map fun s => (s.writeLine l.render).deeper
  | _ => some (s.writeLine l.render)

/-- Writes the lines of a function, and closes its level unless it was not completed. -/
def writeEmission? (s : Sheet) (e : Emission ε β) : Option Sheet :=
  (e.lines.foldlM put? s).bind fun s => if e.result.isOk then s.shallower? else some s

/-- Writes a data segment. -/
def writeSegment? (s : Sheet) (segment : Segment α) : Option Sheet :=
  let opened := (s.writeLine ("const " ++ segment.name)).deeper
  ((segment.values.map Datum.render).foldl writeLine opened).shallower?.map fun s => s.writeLine ""

end Text.Sheet

namespace Allocator

/-- Writes a function. -/
def writeFunction? (a : Allocator) (s : Sheet) (fn : Function α) :
    Option (Sheet × Except (CompileError α) Unit) :=
  match a.emission fn with
  | .error e => some (s, .error e)
  | .ok e => (s.writeEmission? e).map fun s =>
      (s, (e.result.map fun _ => ()).mapError .emission)

/-- Writes functions with blank lines between them. -/
def writeFunctions? (a : Allocator) (s : Sheet) (first : Bool) :
    List (Function α) → Option (Sheet × Except (CompileError α) Unit)
  | [] => some (s, .ok ())
  | fn :: rest =>
    (a.writeFunction? (if first then s else s.writeLine "") fn).bind fun
      | (s, .ok ()) => a.writeFunctions? s false rest
      | (s, .error e) => some (s, .error e)

/-- Writes a program. -/
def writeProgram? (a : Allocator) (s : Sheet) (p : Program α) :
    Option (Sheet × Except (CompileError α) Unit) :=
  (p.segments.foldlM Sheet.writeSegment? s).bind fun s => a.writeFunctions? s true p.functions

end Allocator

/-! ### Segments -/

namespace Text.Sheet

theorem level_writeLine (s : Sheet) (piece : String) : (s.writeLine piece).level = s.level := by
  unfold writeLine write
  split <;> rfl

theorem level_foldl_writeLine (s : Sheet) (pieces : List String) :
    (pieces.foldl writeLine s).level = s.level := by
  induction pieces generalizing s with
  | nil => rfl
  | cons piece pieces ih => rw [List.foldl_cons, ih, level_writeLine]

/-- A level that has been entered can be left. -/
theorem shallower?_eq {s : Sheet} {level : Nat} (h : s.level = level + 1) :
    s.shallower? = some { s with level := level } := by
  unfold shallower?
  rw [h]

theorem writeSegment?_eq (s : Sheet) (segment : Segment α) :
    s.writeSegment? segment = some (s.writeSegment segment) := by
  have hlevel := level_foldl_writeLine (s.writeLine ("const " ++ segment.name)).deeper
    (segment.values.map Datum.render)
  show Option.map _ (shallower? _) = _
  rw [shallower?_eq hlevel]
  rfl

theorem foldlM_writeSegment? (s : Sheet) (segments : List (Segment α)) :
    segments.foldlM writeSegment? s = some (s.writeSegments segments) := by
  induction segments generalizing s with
  | nil => rfl
  | cons segment segments ih =>
    rw [List.foldlM_cons, writeSegment?_eq]
    exact ih _

/-! ### Functions -/

/-- A line that is not a header leaves the level as it was. -/
theorem put?_eq {s : Sheet} {margin : Nat} (hs : s.level = margin + 1) {l : Line}
    (hl : ∀ name frame, l ≠ .header name frame) :
    s.put? l = some { writeMachineLine margin s l with level := margin + 1 } := by
  -- all lines but headers and labels
  have hstep : l.depth = 1 →
      some (s.writeLine l.render) = some { writeMachineLine margin s l with level := margin + 1 } := by
    intro hdepth
    have hsame : ({ s with level := margin + l.depth } : Sheet) = s := by rw [hdepth, ← hs]
    have hlevel := level_writeLine s l.render
    rw [hs] at hlevel
    rw [writeMachineLine, hsame, ← hlevel]
  cases l with
  | header name frame => exact absurd rfl (hl name frame)
  | label name =>
    have hlevel := level_writeLine ({ s with level := margin } : Sheet) (Line.label name).render
    unfold put?
    rw [shallower?_eq hs]
    show some (writeLine _ _).deeper = _
    rw [deeper, hlevel]
    rfl
  | assign | apply | call | branch | goto | ret => exact hstep rfl

/-- The level before a line does not matter, since the line has its own. -/
theorem foldl_writeMachineLine_level (margin before after : Nat) (s : Sheet) (ls : List Line) :
    ({ ls.foldl (writeMachineLine margin) { s with level := before } with level := after } : Sheet)
      = { ls.foldl (writeMachineLine margin) s with level := after } := by
  cases ls <;> rfl

theorem foldlM_put? {s : Sheet} {margin : Nat} (hs : s.level = margin + 1) {ls : List Line}
    (hls : ∀ l ∈ ls, ∀ name frame, l ≠ .header name frame) :
    ls.foldlM put? s
      = some { ls.foldl (writeMachineLine margin) s with level := margin + 1 } := by
  induction ls generalizing s with
  | nil =>
    rw [← hs]
    rfl
  | cons l ls ih =>
    rw [List.foldlM_cons, put?_eq hs (hls l List.mem_cons_self)]
    refine (ih rfl fun l' hl' => hls l' (List.mem_cons_of_mem _ hl')).trans ?_
    exact congrArg some (foldl_writeMachineLine_level margin _ _ _ ls)

theorem writeEmission?_eq (s : Sheet) {e : Emission ε β} {name : String} {frame : Frame}
    {rest : List Line} (hlines : e.lines = .header name frame :: rest)
    (hrest : ∀ l ∈ rest, ∀ name frame, l ≠ .header name frame) :
    s.writeEmission? e = some (s.writeEmission e) := by
  have hopen : ((s.writeLine (Line.header name frame).render).deeper).level = s.level + 1 :=
    congrArg (· + 1) (level_writeLine s _)
  have hfold : e.lines.foldlM put? s
      = some { e.lines.foldl (writeMachineLine s.level) s with level := s.level + 1 } := by
    rw [hlines, List.foldlM_cons]
    refine (foldlM_put? hopen hrest).trans (congrArg some ?_)
    exact foldl_writeMachineLine_level s.level _ _ _ rest
  unfold writeEmission? writeEmission
  rw [hfold, Option.bind_some]
  split
  · exact shallower?_eq rfl
  · rfl

end Text.Sheet

namespace Emit

variable {m : Allocation} {live : Liveness} {fn : Function α} {P : Line → Prop} {Q : β → Prop}

theorem Keeps.mono {P' : Line → Prop} {g : Emit ε β} (h : Keeps P Q g) (hP : ∀ l, P l → P' l) :
    Keeps P' Q g := by
  intro pool hpool
  obtain ⟨hlines, hrest⟩ := h pool hpool
  exact ⟨fun l hl => hP l (hlines l hl), hrest⟩

theorem keeps_settled (name : String) (index : Nat) :
    Keeps P (fun _ => True) (settled name index : Gen α Unit) := by
  refine keeps_bind keeps_now fun now _ => ?_
  split
  · exact keeps_pure trivial
  · exact keeps_fail _

theorem keeps_body (hm : m.WellFormed) (hlabel : ∀ name, P (.label name))
    (hwritten : ∀ kept (i : Instr α) l, Written m kept i l → P l) (index : Nat)
    (instrs : List (Instr α)) : Keeps P (fun _ => True) (body fn m live index instrs) := by
  have hlabels : ∀ index, Keeps P (fun _ => True) (lines (labelLines fn index) : Gen α Unit) := by
    refine fun index => keeps_lines fun l hl => ?_
    obtain ⟨name, -, rfl⟩ := List.mem_map.mp hl
    exact hlabel name
  induction instrs generalizing index with
  | nil => exact hlabels index
  | cons i rest ih =>
    refine keeps_then (hlabels index) (keeps_then ((keeps_instr hm _ i).mono (hwritten _ i)) ?_)
    exact keeps_then (keeps_settled fn.name index) (ih (index + 1))

/-- The header comes first, and there is no other one, also if the function is not
completed. -/
theorem function_header (hm : m.WellFormed) (fn : Function α) (live : Liveness) :
    ∃ rest, (function fn m live Pool.scratch).lines = .header fn.name (fn.frame m live) :: rest ∧
      ∀ l ∈ rest, ∀ name frame, l ≠ .header name frame := by
  have hkeeps : Keeps (fun l => ∀ name frame, l ≠ .header name frame) (fun _ => True)
      (do prologue fn m live; body fn m live 0 fn.body; return fn.frame m live : Gen α Frame) := by
    refine keeps_then (keeps_then (keeps_lines fun l hl => ?_) ?_) (keeps_then ?_ ?_)
    · obtain ⟨j, r, -, rfl⟩ := mem_saveLines.mp hl
      exact fun name frame h => by cases h
    · have hparams : fn.params.drop 0 = fn.params := rfl
      refine (keeps_params hparams).mono fun l hl name frame h => ?_
      subst h
      cases hl
    · refine keeps_body hm (fun label name frame h => by cases h) (fun kept i l hl name frame h => ?_)
        0 fn.body
      subst h
      cases hl
    · exact keeps_pure trivial
  exact ⟨_, rfl, (hkeeps Pool.scratch Pool.ready_scratch).1⟩

end Emit

/-! ### Programs -/

namespace Allocator

theorem writeFunction?_eq (a : Allocator) (s : Sheet) (fn : Function α) :
    a.writeFunction? s fn = some (a.writeFunction s fn) := by
  unfold writeFunction? writeFunction
  cases he : a.emission fn with
  | error e => rfl
  | ok e =>
    obtain ⟨live, m, -, hm, rfl⟩ := exists_of_emission he
    obtain ⟨rest, hlines, hrest⟩ :=
      Emit.function_header (Allocation.wellFormed_of_ofPlaces hm) fn live
    have hwrite : s.writeEmission? ((Emit.function fn m live).run Pool.scratch) = _ :=
      Sheet.writeEmission?_eq s hlines hrest
    dsimp only
    rw [hwrite]
    rfl

theorem writeFunctions?_eq (a : Allocator) (s : Sheet) (first : Bool) (fns : List (Function α)) :
    a.writeFunctions? s first fns = some (a.writeFunctions s first fns) := by
  induction fns generalizing s first with
  | nil => rfl
  | cons fn fns ih =>
    unfold writeFunctions? writeFunctions
    rw [writeFunction?_eq, Option.bind_some]
    rcases a.writeFunction (if first then s else s.writeLine "") fn with ⟨s', e | -⟩
    · rfl
    · exact ih s' false

/-- **No level is left that was not entered.** -/
theorem writeProgram?_eq (a : Allocator) (s : Sheet) (p : Program α) :
    a.writeProgram? s p = some (a.writeProgram s p) := by
  unfold writeProgram? writeProgram
  rw [Sheet.foldlM_writeSegment?, Option.bind_some, writeFunctions?_eq]

end Allocator

end Vapor
