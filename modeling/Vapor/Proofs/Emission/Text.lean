/-
Vapor/Proofs/Emission/Text.lean

What stands on a sheet.  As long as no line is left unfinished, everything that is
written adds whole lines, so the text of a compiled program can be told from its
segments and from the lines of its functions.

What becomes of a function (`Allocator.code`) depends neither on the sheet nor on
the functions before it: one that fails gives its error whatever stands on the sheet,
and one that succeeds adds its lines and leaves the sheet otherwise as it was.  So a
program is compiled function by function (`compile_eq`).
-/
import Vapor.Emission.Program
import Vapor.Proofs.Emission.Basic
import Vapor.Proofs.Liveness.Exact

namespace Vapor

open Text Machine

variable {α : Type}

/-! ### Lines -/

namespace Text.Sheet

/-- A line at some level, as it stands on a sheet. -/
def written (unit : String) (level : Nat) (piece : String) : String :=
  if piece.isEmpty then "" else indentation unit level ++ piece

/-- The sheet at another level. -/
def atLevel (s : Sheet) (level : Nat) : Sheet :=
  { s with level := level }

/-- Adds finished lines. -/
def append (s : Sheet) (lines : List String) : Sheet :=
  { s with lines := s.lines ++ lines }

theorem append_append (s : Sheet) (xs ys : List String) :
    (s.append xs).append ys = s.append (xs ++ ys) := by
  simp [append]

variable {s : Sheet}

theorem writeLine_eq (hs : s.pending = "") (piece : String) :
    s.writeLine piece = s.append [written s.unit s.level piece] := by
  obtain ⟨unit, level, lines, pending⟩ := s
  obtain rfl : pending = "" := hs
  have hempty : ("" : String).isEmpty = true := rfl
  unfold writeLine written
  cases hpiece : piece.isEmpty with
  | true => simp [append]
  | false => simp [append, write]

/-- Lines that are all at one level. -/
theorem foldl_writeLine (hs : s.pending = "") (pieces : List String) :
    pieces.foldl writeLine s = s.append (pieces.map (written s.unit s.level)) := by
  induction pieces generalizing s with
  | nil => simp [append]
  | cons piece pieces ih =>
    have hrest := ih (show (s.append [written s.unit s.level piece]).pending = "" from hs)
    rw [append_append] at hrest
    rw [List.foldl_cons, writeLine_eq hs, hrest]
    rfl

/-- Lines at levels of their own. -/
theorem foldl_writeMachineLine (hs : s.pending = "") (margin level : Nat) (code : List Line) :
    (code.foldl (writeMachineLine margin) s).atLevel level
      = (s.atLevel level).append
        (code.map fun l => written s.unit (margin + l.depth) l.render) := by
  induction code generalizing s with
  | nil => simp [append, atLevel]
  | cons l code ih =>
    have hline : writeMachineLine margin s l = (s.atLevel (margin + l.depth)).append
        [written s.unit (margin + l.depth) l.render] :=
      writeLine_eq (s := s.atLevel (margin + l.depth)) hs _
    have hrest := ih (s := writeMachineLine margin s l) (by rw [hline]; exact hs)
    rw [List.foldl_cons, hrest, hline]
    exact append_append (s.atLevel level) _ _

theorem writeEmission_eq {ε β : Type} (hs : s.pending = "") {e : Emission ε β} {b : β}
    (he : e.result = .ok b) : s.writeEmission e
      = s.append (e.lines.map fun l => written s.unit (s.level + l.depth) l.render) := by
  unfold writeEmission
  rw [he]
  exact foldl_writeMachineLine hs s.level s.level e.lines

/-! ### Segments -/

/-- The lines of a data segment, and the blank one behind them. -/
def segmentLines (unit : String) (level : Nat) (segment : Segment α) : List String :=
  [written unit level ("const " ++ segment.name)] ++
    (segment.values.map fun d => written unit (level + 1) d.render) ++ [""]

theorem writeBelow_eq (hs : s.pending = "") (pieces : List String) :
    s.writeBelow pieces = s.append (pieces.map (written s.unit (s.level + 1))) := by
  have hdeep := foldl_writeLine (s := s.deeper) hs pieces
  show (pieces.foldl writeLine s.deeper).atLevel s.level = _
  rw [hdeep]
  rfl

theorem writeSegment_eq (hs : s.pending = "") (segment : Segment α) :
    s.writeSegment segment = s.append (segmentLines s.unit s.level segment) := by
  unfold writeSegment
  rw [writeLine_eq hs, writeBelow_eq (by exact hs), append_append, writeLine_eq (by exact hs),
    append_append, List.map_map]
  rfl

theorem writeSegments_eq (hs : s.pending = "") (segments : List (Segment α)) :
    s.writeSegments segments = s.append (segments.flatMap (segmentLines s.unit s.level)) := by
  unfold writeSegments
  induction segments generalizing s with
  | nil => simp [append]
  | cons segment segments ih =>
    rw [List.foldl_cons, writeSegment_eq hs, ih (by exact hs), append_append]
    rfl

end Text.Sheet

/-! ### Programs -/

/-- The lines of a program: its segments, then its functions with blank lines between
them. -/
def programLines (unit : String) (segments : List (Segment α)) (codes : List (List Line)) :
    List String :=
  segments.flatMap (Sheet.segmentLines unit 0) ++
    [""].intercalate (codes.map (List.map fun l => Sheet.written unit l.depth l.render))

/-- Its text. -/
def programText (unit : String) (segments : List (Segment α)) (codes : List (List Line)) : String :=
  String.join ((programLines unit segments codes).map (· ++ "\n"))

theorem intercalate_cons {β : Type} (sep : β) (xs : List β) (xss : List (List β)) :
    [sep].intercalate (xs :: xss) = xs ++ xss.flatMap (sep :: ·) := by
  induction xss generalizing xs with
  | nil => simp
  | cons ys xss ih =>
    rw [List.intercalate_cons_cons, ih, List.flatMap_cons]
    simp

namespace Allocator

variable {a : Allocator}

/-- The function has these lines. -/
def Compiles (a : Allocator) (fn : Function α) (code : List Line) : Prop :=
  ∃ live m pool frame, fn.liveness = .ok live ∧ a.allocate live = .ok m ∧
    (Emit.function fn m live).Gives Pool.scratch code pool frame

/-- What is written for a function that has a liveness and places. -/
theorem emission_of_places {fn : Function α} {live : Liveness} {m : Allocation}
    (hlive : fn.liveness = .ok live) (hm : a.allocate live = .ok m) :
    a.emission fn = .ok ((Emit.function fn m live).run Pool.scratch) := by
  simp [emission, hlive, hm, Except.mapError, bind, Except.bind, pure, Except.pure]

theorem exists_of_emission {fn : Function α} {e : Emission (EmitError α) Frame}
    (h : a.emission fn = .ok e) : ∃ live m, fn.liveness = .ok live ∧ a.allocate live = .ok m ∧
      (Emit.function fn m live).run Pool.scratch = e := by
  cases hlive : fn.liveness with
  | error cause =>
    rw [emission, hlive] at h
    cases h
  | ok live =>
    cases hm : a.allocate live with
    | error cause => simp [emission, hlive, hm, Except.mapError, bind, Except.bind] at h
    | ok m => exact ⟨live, m, rfl, hm, Except.ok.inj ((emission_of_places hlive hm).symm.trans h)⟩

theorem emission_eq_ok {fn : Function α} {e : Emission (EmitError α) Frame}
    (h : a.emission fn = .ok e) {frame : Frame} (hframe : e.result = .ok frame) :
    a.Compiles fn e.lines := by
  obtain ⟨live, m, hlive, hm, he⟩ := exists_of_emission h
  refine ⟨live, m, e.pool, frame, hlive, hm, ?_⟩
  exact he.trans (by rw [← hframe])

/-- What becomes of a function: its lines, or why it has none. -/
def code (a : Allocator) (fn : Function α) : Except (CompileError α) (List Line) :=
  match a.emission fn with
  | .error e => .error e
  | .ok e => (e.result.map fun _ => e.lines).mapError .emission

variable {fn : Function α} {s : Sheet}

theorem exists_of_code {code : List Line} (h : a.code fn = .ok code) :
    ∃ e frame, a.emission fn = .ok e ∧ e.result = .ok frame ∧ e.lines = code := by
  unfold Allocator.code at h
  cases he : a.emission fn with
  | error e => simp [he] at h
  | ok e =>
    simp only [he] at h
    cases hframe : e.result with
    | error cause =>
      rw [hframe] at h
      cases h
    | ok frame =>
      rw [hframe] at h
      exact ⟨e, frame, rfl, hframe, Except.ok.inj h⟩

theorem compiles_of_code {code : List Line} (h : a.code fn = .ok code) :
    a.Compiles fn code := by
  obtain ⟨e, frame, he, hframe, rfl⟩ := exists_of_code h
  exact emission_eq_ok he hframe

/-- Whether a function succeeds, and why not, has nothing to do with the sheet. -/
theorem writeFunction_snd (a : Allocator) (s : Sheet) (fn : Function α) :
    (a.writeFunction s fn).2 = (a.code fn).map fun _ => () := by
  unfold writeFunction Allocator.code
  cases a.emission fn with
  | error e => rfl
  | ok e => cases h : e.result <;> simp [h, Except.map, Except.mapError]

/-- A function that succeeds adds its lines and changes nothing else. -/
theorem writeFunction_of_ok {code : List Line} (hs : s.pending = "") (h : a.code fn = .ok code) :
    a.writeFunction s fn = (s.append
      (code.map fun l => Sheet.written s.unit (s.level + l.depth) l.render), .ok ()) := by
  obtain ⟨e, frame, he, hframe, rfl⟩ := exists_of_code h
  unfold writeFunction
  simp only [he]
  rw [Sheet.writeEmission_eq hs hframe, hframe]
  rfl

theorem writeFunctions_snd (a : Allocator) (s : Sheet) (first : Bool) (fns : List (Function α)) :
    (a.writeFunctions s first fns).2 = (fns.mapM a.code).map fun _ => () := by
  induction fns generalizing s first with
  | nil => rfl
  | cons fn fns ih =>
    have hfirst := writeFunction_snd a (if first then s else s.writeLine "") fn
    rw [List.mapM_cons]
    unfold writeFunctions
    rcases hwrite : a.writeFunction (if first then s else s.writeLine "") fn with ⟨s', result⟩
    rw [hwrite] at hfirst
    obtain rfl : result = (a.code fn).map fun _ => () := hfirst
    cases a.code fn with
    | error e => rfl
    | ok code =>
      show (a.writeFunctions s' false fns).2 = _
      rw [ih]
      cases fns.mapM a.code <;> rfl

/-- Functions that succeed add their lines, with blank lines between them. -/
theorem writeFunctions_of_ok {first : Bool} {fns : List (Function α)} {codes : List (List Line)}
    (hs : s.pending = "") (h : fns.mapM a.code = .ok codes) :
    let texts := codes.map (List.map fun l => Sheet.written s.unit (s.level + l.depth) l.render)
    a.writeFunctions s first fns = (s.append
      (if first then [""].intercalate texts else texts.flatMap ("" :: ·)), .ok ()) := by
  replace h := mapM_eq_ok.mp h
  induction h generalizing s first with
  | nil => simp [writeFunctions, Sheet.append]
  | @cons fn code fns codes hcode _ ih =>
    have hgap : (if first then s else s.writeLine "") = s.append (if first then [] else [""]) := by
      cases first with
      | true => simp [Sheet.append]
      | false => exact Sheet.writeLine_eq hs ""
    dsimp only
    unfold writeFunctions
    rw [hgap, writeFunction_of_ok (by exact hs) hcode]
    dsimp only
    rw [ih (by exact hs)]
    simp only [Sheet.append_append, List.map_cons, intercalate_cons]
    cases first with
    | true => rfl
    | false => rfl

/-! ### Programs -/

/-- The sheet of a program whose functions all succeed. -/
theorem writeProgram_of_ok {p : Program α} {codes : List (List Line)}
    (h : p.functions.mapM a.code = .ok codes) (unit : String) :
    a.writeProgram { unit := unit } p
      = (Sheet.append { unit := unit } (programLines unit p.segments codes), .ok ()) := by
  unfold writeProgram
  rw [Sheet.writeSegments_eq rfl, writeFunctions_of_ok (by rfl) h, Sheet.append_append]
  simp [programLines, Sheet.append]

theorem text_programLines (unit : String) (segments : List (Segment α)) (codes : List (List Line)) :
    (Sheet.append { unit := unit } (programLines unit segments codes)).text
      = programText unit segments codes := by
  simp [Sheet.text, Sheet.append, programText]

/-- **A program is compiled function by function.** -/
theorem compile_eq (a : Allocator) (unit : String) (p : Program α) :
    a.compile unit p = (p.functions.mapM a.code).map (programText unit p.segments) := by
  unfold compile
  cases h : p.functions.mapM a.code with
  | error e =>
    have hresult := writeFunctions_snd a (Sheet.writeSegments { unit := unit } p.segments) true
      p.functions
    rw [h] at hresult
    unfold writeProgram
    rcases hwrite : a.writeFunctions (Sheet.writeSegments { unit := unit } p.segments) true
      p.functions with ⟨s, result⟩
    rw [hwrite] at hresult
    obtain rfl : result = .error e := hresult
    rfl
  | ok codes =>
    rw [writeProgram_of_ok h]
    exact congrArg Except.ok (text_programLines unit p.segments codes)

/-- The text of a compiled program consists of its segments and of the lines of its
functions. -/
theorem compile_eq_ok {unit text : String} {p : Program α} (h : a.compile unit p = .ok text) :
    ∃ codes, List.Forall₂ a.Compiles p.functions codes ∧
      text = programText unit p.segments codes := by
  rw [compile_eq] at h
  cases hcodes : p.functions.mapM a.code with
  | error e =>
    rw [hcodes] at h
    cases h
  | ok codes =>
    rw [hcodes] at h
    obtain rfl := Except.ok.inj h
    exact ⟨codes, (mapM_eq_ok.mp hcodes).imp fun fn code => compiles_of_code, rfl⟩

end Allocator

end Vapor
