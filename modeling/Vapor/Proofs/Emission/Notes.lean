/-
Vapor/Proofs/Emission/Notes.lean

What is made of a program does not depend on its notes.  Replacing the notes by a map `f`
before a function is analysed and written is the same as replacing them in the error
afterwards, and changes nothing else:

    (fn.map f).liveness = fn.liveness.mapError (FlowError.map f),
    Emit.function (fn.map f) m live = (Emit.function fn m live).mapError (EmitError.map f),
    a.writeProgram s (p.map f) = (a.writeProgram s p).map id (·.mapError (CompileError.map f)).

Each step is an equation of this form, along the syntax, with no hypotheses on `f`.
-/
import Vapor.Proofs.Emission.Text

namespace Vapor

open Machine Text

variable {α β : Type}

/-! ### Errors -/

/-- Replaces the note, if there is one. -/
def FlowError.map (f : α → β) : FlowError α → FlowError β
  | .unknownLabel label function note => .unknownLabel label function (f note)
  | .labelOutOfRange label note => .labelOutOfRange label (f note)
  | .beforeStart => .beforeStart

/-- Replaces the note, if there is one. -/
def EmitError.map (f : α → β) : EmitError α → EmitError β
  | .noLocation name note => .noLocation name (f note)
  | .pool cause => .pool cause

/-- Replaces the note, if there is one. -/
def CompileError.map (f : α → β) : CompileError α → CompileError β
  | .flow cause => .flow (cause.map f)
  | .placement cause => .placement cause
  | .emission cause => .emission (cause.map f)

section MapError

variable {ε δ γ : Type} (h : ε → δ)

theorem mapError_bind (x : Except ε β) (k : β → Except ε γ) :
    (x >>= k).mapError h = x.mapError h >>= fun b => (k b).mapError h := by
  cases x <;> rfl

theorem mapError_mapM (k : β → Except ε γ) (xs : List β) :
    (xs.mapM k).mapError h = xs.mapM fun x => (k x).mapError h := by
  induction xs with
  | nil => rfl
  | cons x xs ih =>
    rw [List.mapM_cons, List.mapM_cons, mapError_bind, ← ih]
    congr 1
    funext y
    cases xs.mapM k <;> rfl

end MapError

/-! ### Variables and frames -/

variable (f : α → β)

@[simp] theorem Operand.vars_map (o : Operand α) : (o.map f).vars = o.vars := by
  cases o <;> rfl

@[simp] theorem Callee.vars_map (c : Callee α) : (c.map f).vars = c.vars := by
  cases c <;> rfl

theorem flatMap_vars_map (os : List (Operand α)) :
    (os.map (Operand.map f)).flatMap Operand.vars = os.flatMap Operand.vars := by
  simp [List.flatMap_map]

namespace Instr

@[simp] theorem uses_map (i : Instr α) : (i.map f).uses = i.uses := by
  cases i with
  | ret value note => cases value <;> simp [Instr.map, uses]
  | _ => simp [Instr.map, uses, Address.map, Ref.map, flatMap_vars_map]

@[simp] theorem defs_map (i : Instr α) : (i.map f).defs = i.defs := by
  cases i with
  | call dest => cases dest <;> rfl
  | apply dest => cases dest <;> rfl
  | _ => rfl

@[simp] theorem isCall_map (i : Instr α) : (i.map f).isCall = i.isCall := by
  cases i <;> rfl

@[simp] theorem outSlots_map (i : Instr α) : (i.map f).outSlots = i.outSlots := by
  cases i <;> simp [Instr.map, outSlots]

@[simp] theorem kept_map (m : Allocation) (live : Liveness) (index : Nat) (i : Instr α) :
    (i.map f).kept m live index = i.kept m live index := by
  cases i <;> rfl

end Instr

namespace Function

/-- The frame does not depend on the notes. -/
theorem frame_map (fn : Function α) (m : Allocation) (live : Liveness) :
    (fn.map f).frame m live = fn.frame m live := by
  simp [frame, Function.map, List.zipIdx_map, Function.comp_def]

/-! ### Control and liveness -/

@[simp] theorem indexOf?_map (fn : Function α) (name : String) :
    (fn.map f).indexOf? name = fn.indexOf? name := by
  simp only [indexOf?, Function.map, List.find?_map, Option.map_map]
  rfl

@[simp] theorem labelsAt_map (fn : Function α) (index : Int) :
    (fn.map f).labelsAt index = fn.labelsAt index := by
  simp only [labelsAt, Function.map, List.filter_map, List.map_map]
  rfl

theorem target_map (fn : Function α) (label : Ref α) :
    (fn.map f).target (label.map f) = (fn.target label).mapError (FlowError.map f) := by
  simp only [target, indexOf?_map, Ref.map]
  cases fn.indexOf? label.name <;> rfl

@[simp] theorem within_map (fn : Function α) (index : Int) :
    (fn.map f).within index = fn.within index := by
  simp [within, Function.map]

theorem successors_map (fn : Function α) (index : Nat) (i : Instr α) :
    (fn.map f).successors index (i.map f)
      = (fn.successors index i).mapError (FlowError.map f) := by
  cases i with
  | goto label note =>
    simp only [Instr.map, successors, target_map, mapError_bind, within_map]
    rfl
  | branch test positive label note =>
    simp only [Instr.map, successors, target_map, mapError_bind, within_map]
    rfl
  | ret => rfl
  | assign | call | apply | store | load =>
    simp only [Instr.map, successors, within_map]
    rfl

theorem successorsFrom_map (fn : Function α) (index : Nat) (instrs : List (Instr α)) :
    (fn.map f).successorsFrom index (instrs.map (Instr.map f))
      = (fn.successorsFrom index instrs).mapError (FlowError.map f) := by
  induction instrs generalizing index with
  | nil => rfl
  | cons i rest ih =>
    simp only [List.map_cons, successorsFrom, successors_map, ih, mapError_bind]
    rfl

theorem position_map (fn : Function α) (index : Int) :
    (fn.map f).position index = (fn.position index).mapError (FlowError.map f) := by
  have hlength : (fn.map f).body.length = fn.body.length := List.length_map ..
  unfold position
  rw [hlength]
  split
  · rfl
  · split <;> rfl

theorem node_map (fn : Function α) (i : Instr α) (next : List Int) :
    (fn.map f).node (i.map f) next = (fn.node i next).mapError (FlowError.map f) := by
  have hposition : (fn.map f).position
      = fun index => (fn.position index).mapError (FlowError.map f) :=
    funext (position_map f fn)
  simp only [node, hposition, Instr.uses_map, Instr.defs_map, mapError_bind, mapError_mapM]
  rfl

theorem nodes_map (fn : Function α) :
    (fn.map f).nodes = fn.nodes.mapError (FlowError.map f) := by
  have hnext : (fn.map f).allSuccessors = fn.allSuccessors.mapError (FlowError.map f) :=
    successorsFrom_map f fn 0 fn.body
  simp only [nodes, hnext, mapError_bind]
  congr 1
  funext next
  have hnodes : (fn.map f).body.zip next = (fn.body.zip next).map (Prod.map (Instr.map f) id) := by
    simp [Function.map, List.zip_map_left]
  -- the label beyond the end is found by its index, and handed on with its note
  have hbeyond : ((fn.map f).labels.find? fun l => ((fn.map f).body.length : Int) < l.index)
      = (fn.labels.find? fun l => (fn.body.length : Int) < l.index).map (Label.map f) := by
    simp only [Function.map, List.find?_map, List.length_map]
    rfl
  rw [hbeyond, hnodes]
  cases fn.labels.find? fun l => (fn.body.length : Int) < l.index with
  | some l => rfl
  | none =>
    show List.mapM _ (List.map _ _) = Except.mapError _ (List.mapM _ _)
    rw [mapError_mapM, List.mapM_map]
    exact congrArg (fun k => List.mapM k _) (funext fun x => node_map f fn x.1 x.2)

theorem callIndices_map (fn : Function α) : (fn.map f).callIndices = fn.callIndices := by
  simp [callIndices, Function.map, List.zipIdx_map, List.filter_map, Function.comp_def]

/-- Liveness does not depend on the notes. -/
theorem liveness_map (fn : Function α) :
    (fn.map f).liveness = fn.liveness.mapError (FlowError.map f) := by
  simp only [liveness, nodes_map, callIndices_map, mapError_bind]
  rfl

end Function

/-! ### Generators -/

/-- Replaces the error, if there is one. -/
def Emission.mapError {ε δ γ : Type} (h : ε → δ) (e : Emission ε γ) : Emission δ γ :=
  ⟨e.lines, e.pool, e.result.mapError h⟩

namespace Emit

section MapError

variable {ε δ γ : Type} (h : ε → δ)

/-- Replaces the error with which a generator fails. -/
def mapError (g : Emit ε γ) : Emit δ γ :=
  fun pool => (g pool).mapError h

@[simp] theorem mapError_pure (c : γ) : (pure c : Emit ε γ).mapError h = pure c := rfl

@[simp] theorem mapError_bind (g : Emit ε β) (k : β → Emit ε γ) :
    (g >>= k).mapError h = g.mapError h >>= fun b => (k b).mapError h := by
  funext pool
  cases hg : (g pool).result with
  | error e =>
    have hfail : (g.mapError h pool).result = .error (h e) := congrArg (Except.mapError h) hg
    rw [bind_of_error hfail, mapError, bind_of_error hg]
    rfl
  | ok b =>
    have hdone : (g.mapError h pool).result = .ok b := congrArg (Except.mapError h) hg
    rw [bind_of_ok hdone, mapError, bind_of_ok hg]
    rfl

@[simp] theorem mapError_map (k : β → γ) (g : Emit ε β) :
    (k <$> g).mapError h = k <$> g.mapError h := by
  rw [map_eq_pure_bind, map_eq_pure_bind, mapError_bind]
  rfl

@[simp] theorem mapError_lines (ls : List Line) : (lines ls : Emit ε Unit).mapError h = lines ls :=
  rfl

@[simp] theorem mapError_line (l : Line) : (line l : Emit ε Unit).mapError h = line l := rfl

@[simp] theorem mapError_assign (dest : Dest) (source : Source) :
    (assign dest source : Emit ε Unit).mapError h = assign dest source := rfl

@[simp] theorem mapError_pool : (pool : Emit ε Pool).mapError h = pool := rfl

theorem mapError_ite (c : Prop) [Decidable c] (g k : Emit ε γ) :
    (if c then g else k).mapError h = if c then g.mapError h else k.mapError h := by
  split <;> rfl

end MapError

/-! The scratch registers fail without a note. -/

@[simp] theorem mapError_acquire :
    (acquire : Gen α Register).mapError (EmitError.map f) = acquire := by
  funext pool
  simp only [mapError, acquire]
  cases pool.acquire <;> rfl

@[simp] theorem mapError_release (r : Register) :
    (release r : Gen α Unit).mapError (EmitError.map f) = release r := by
  funext pool
  simp only [mapError, release]
  cases pool.release r <;> rfl

@[simp] theorem mapError_giveBack (r : Register) :
    (giveBack r : Gen α Unit).mapError (EmitError.map f) = giveBack r := by
  simp [giveBack, mapError_ite]

/-! ### Operands and calls -/

theorem location_map (m : Allocation) (x : Ref α) :
    location m (x.map f) = (location m x).mapError (EmitError.map f) := by
  simp only [location, Ref.map]
  cases m.location? x.name <;> rfl

theorem load_map (m : Allocation) (x : Ref α) :
    load m (x.map f) = (load m x).mapError (EmitError.map f) := by
  simp only [load, location_map, mapError_bind]
  congr 1
  funext l
  cases l <;> simp

theorem store_map (m : Allocation) (r : Register) (x : Ref α) :
    store m r (x.map f) = (store m r x).mapError (EmitError.map f) := by
  simp only [store, Ref.map]
  cases m.slot? x.name <;> rfl

theorem literal_map (o : Operand α) : literal (o.map f) = (literal o).map (Ref.map f) id := by
  cases o <;> rfl

theorem value_map (m : Allocation) (o : Operand α) :
    value m (o.map f) = (value m o).mapError (EmitError.map f) := by
  simp only [value, literal_map]
  cases literal o with
  | inl x => simp [load_map]
  | inr v => rfl

@[simp] theorem mapError_drop (v : Value) :
    (drop v : Gen α Unit).mapError (EmitError.map f) = drop v := by
  cases v <;> simp [drop]

theorem define_map (m : Allocation) (x : Ref α) (source : Source) :
    define m (x.map f) source = (define m x source).mapError (EmitError.map f) := by
  simp [define, load_map, store_map]

theorem passArg_map (m : Allocation) (position : Nat) (arg : Operand α) :
    passArg m position (arg.map f) = (passArg m position arg).mapError (EmitError.map f) := by
  simp only [passArg, literal_map]
  cases Register.arguments[position]? with
  | some r => cases literal arg <;> simp [location_map]
  | none => cases literal arg <;> simp [load_map]

theorem passArgs_map (m : Allocation) (position : Nat) (args : List (Operand α)) :
    passArgs m position (args.map (Operand.map f))
      = (passArgs m position args).mapError (EmitError.map f) := by
  induction args generalizing position with
  | nil => rfl
  | cons arg args ih => simp [passArgs, passArg_map, ih]

theorem transfer_map (m : Allocation) (callee : Callee α) :
    transfer m (callee.map f) = (transfer m callee).mapError (EmitError.map f) := by
  cases callee with
  | label x => rfl
  | var x => simp [transfer, Callee.map, load_map]

theorem values_map (m : Allocation) (os : List (Operand α)) :
    values m (os.map (Operand.map f)) = (values m os).mapError (EmitError.map f) := by
  induction os with
  | nil => rfl
  | cons o os ih => simp [values, value_map, ih]

@[simp] theorem mapError_dropAll (vs : List Value) :
    (dropAll vs : Gen α Unit).mapError (EmitError.map f) = dropAll vs := by
  induction vs with
  | nil => rfl
  | cons v vs ih => simp [dropAll, ih]

/-! ### Instructions and functions -/

theorem instr_map (m : Allocation) (kept : List Register) (i : Instr α) :
    instr m kept (i.map f) = (instr m kept i).mapError (EmitError.map f) := by
  cases i with
  | call dest callee args note =>
    cases dest <;> simp [instr, Instr.map, passArgs_map, transfer_map, define_map]
  | apply dest op args note =>
    cases dest <;> simp [instr, Instr.map, values_map, define_map]
  | ret value note => cases value <;> simp [instr, Instr.map, value_map]
  | goto target note => rfl
  | branch test positive target note => simp [instr, Instr.map, Ref.map, value_map]
  | assign | store | load =>
    simp [instr, Instr.map, Address.map, load_map, value_map, store_map]

theorem param_map (m : Allocation) (live : Liveness) (position : Nat) (x : Ref α) :
    param m live position (x.map f) = (param m live position x).mapError (EmitError.map f) := by
  simp only [param, Ref.map, mapError_ite]
  congr 1
  cases m.location? x.name with
  | none => rfl
  | some l =>
    cases Register.arguments[position]? with
    | some r => rfl
    | none => cases l <;> simp

theorem params_map (m : Allocation) (live : Liveness) (position : Nat) (xs : List (Ref α)) :
    params m live position (xs.map (Ref.map f))
      = (params m live position xs).mapError (EmitError.map f) := by
  induction xs generalizing position with
  | nil => rfl
  | cons x xs ih => simp [params, param_map, ih]

@[simp] theorem mapError_settled (function : String) (index : Nat) :
    (settled function index : Gen α Unit).mapError (EmitError.map f)
      = settled function index := by
  simp only [settled, mapError_bind, mapError_ite]
  rfl

theorem body_map (fn : Function α) (m : Allocation) (live : Liveness) (index : Nat)
    (instrs : List (Instr α)) :
    body (fn.map f) m live index (instrs.map (Instr.map f))
      = (body fn m live index instrs).mapError (EmitError.map f) := by
  have hlabels : ∀ index, labelLines (fn.map f) index = labelLines fn index :=
    fun index => congrArg (List.map Line.label) (fn.labelsAt_map f index)
  induction instrs generalizing index with
  | nil => simp [body, hlabels]
  | cons i rest ih =>
    simp only [List.map_cons, body, hlabels, Instr.kept_map, instr_map, ih, mapError_bind,
      mapError_lines, mapError_settled]
    rfl

/-- The lines of a function do not depend on the notes, nor does the frame. -/
theorem function_map (fn : Function α) (m : Allocation) (live : Liveness) :
    function (fn.map f) m live = (function fn m live).mapError (EmitError.map f) := by
  have hparams := params_map f m live 0 fn.params
  have hbody := body_map f fn m live 0 fn.body
  simp only [function, prologue, fn.frame_map, mapError_bind, mapError_line, mapError_lines,
    mapError_pure, ← hparams, ← hbody]
  rfl

end Emit

/-! ### Programs -/

theorem Datum.render_map (d : Datum α) : (d.map f).render = d.render := by
  cases d <;> rfl

theorem Text.Sheet.writeSegment_map (s : Sheet) (segment : Segment α) :
    s.writeSegment (segment.map f) = s.writeSegment segment := by
  simp only [writeSegment, Segment.map, List.map_map, Function.comp_def, Datum.render_map]

theorem Text.Sheet.writeSegments_map (s : Sheet) (segments : List (Segment α)) :
    s.writeSegments (segments.map (Segment.map f)) = s.writeSegments segments := by
  simp only [writeSegments, List.foldl_map, writeSegment_map]

namespace Allocator

theorem emission_map (a : Allocator) (fn : Function α) :
    a.emission (fn.map f) = ((a.emission fn).map (Emission.mapError (EmitError.map f))).mapError
      (CompileError.map f) := by
  have hmap := fn.liveness_map f
  cases hlive : fn.liveness with
  | error cause =>
    rw [hlive] at hmap
    rw [emission, emission, hmap, hlive]
    rfl
  | ok live =>
    rw [hlive] at hmap
    cases hm : a.allocate live with
    | error cause =>
      -- places are found from the liveness alone
      have hfails : ∀ γ : Type, ∀ fn : Function γ, fn.liveness = .ok live →
          a.emission fn = .error (.placement cause) := by
        intro γ fn hlive
        simp [emission, hlive, hm, Except.mapError, bind, Except.bind]
      rw [hfails β _ hmap, hfails α _ hlive]
      rfl
    | ok m =>
      rw [emission_of_places hmap hm, emission_of_places hlive hm, Emit.function_map]
      rfl

theorem writeFunction_map (a : Allocator) (s : Sheet) (fn : Function α) :
    a.writeFunction s (fn.map f)
      = (a.writeFunction s fn).map id (·.mapError (CompileError.map f)) := by
  simp only [writeFunction, emission_map]
  cases a.emission fn with
  | error cause => rfl
  | ok e =>
    obtain ⟨code, pool, result⟩ := e
    cases result <;> rfl

theorem writeFunctions_map (a : Allocator) (s : Sheet) (first : Bool) (fns : List (Function α)) :
    a.writeFunctions s first (fns.map (Function.map f))
      = (a.writeFunctions s first fns).map id (·.mapError (CompileError.map f)) := by
  induction fns generalizing s first with
  | nil => rfl
  | cons fn fns ih =>
    simp only [List.map_cons, writeFunctions, writeFunction_map]
    rcases a.writeFunction (if first then s else s.writeLine "") fn with ⟨s', - | -⟩
    · rfl
    · exact ih s' false

/-- A program is written in the same way whatever its notes are: on the sheet there is no
difference, also where a function fails. -/
theorem writeProgram_map (a : Allocator) (s : Sheet) (p : Program α) :
    a.writeProgram s (p.map f)
      = (a.writeProgram s p).map id (·.mapError (CompileError.map f)) := by
  show a.writeFunctions (s.writeSegments (p.segments.map (Segment.map f))) true
      (p.functions.map (Function.map f)) = _
  rw [Sheet.writeSegments_map, writeFunctions_map]
  rfl

theorem compile_map (a : Allocator) (unit : String) (p : Program α) :
    a.compile unit (p.map f) = (a.compile unit p).mapError (CompileError.map f) := by
  simp only [compile, writeProgram_map]
  rcases a.writeProgram { unit := unit } p with ⟨s, - | -⟩ <;> rfl

end Allocator

end Vapor
