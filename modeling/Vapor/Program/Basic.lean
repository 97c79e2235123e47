/-
Vapor/Program/Basic.lean

Programs of the Vapor language: data segments, and functions made of
instructions over named variables.

Every node carries a note of some type `α`.  The reader of source text notes
the span a node was read from; `map` replaces the notes, and two programs are
the same but for their notes if they agree once the notes are erased.  The
analyses of a program never look at the notes and hand them on in their errors.
-/
import Vapor.Data.Sorted

namespace Vapor

/-- An occurrence of a name: a variable, or a label when it stands behind a colon. -/
structure Ref (α : Type) where
  name : String
  note : α
deriving DecidableEq, Repr

/-- What an instruction computes with. -/
inductive Operand (α : Type) where
  /-- The value of a variable. -/
  | var (ref : Ref α)
  /-- An integer. -/
  | int (value : Int) (note : α)
  /-- A string, kept as it is written, quotes included. -/
  | text (lexeme : String) (note : α)
  /-- The address of a label. -/
  | label (ref : Ref α)
deriving DecidableEq, Repr

/-- What is called: the function a variable points to, or a function by name. -/
inductive Callee (α : Type) where
  | var (ref : Ref α)
  | label (ref : Ref α)
deriving DecidableEq, Repr

/-- A word of a data segment. -/
inductive Datum (α : Type) where
  | int (value : Int) (note : α)
  | label (ref : Ref α)
deriving DecidableEq, Repr

/-- A place in memory: so many bytes from where a variable points to. -/
structure Address (α : Type) where
  base : Ref α
  offset : Int
  note : α
deriving DecidableEq, Repr

/-- The instructions. -/
inductive Instr (α : Type) where
  /-- `dest = source` -/
  | assign (dest : Ref α) (source : Operand α) (note : α)
  /-- `dest = call callee(args)`, or without a destination -/
  | call (dest : Option (Ref α)) (callee : Callee α) (args : List (Operand α)) (note : α)
  /-- `dest = op(args)`, or without a destination -/
  | apply (dest : Option (Ref α)) (op : String) (args : List (Operand α)) (note : α)
  /-- `[base+offset] = source` -/
  | store (dest : Address α) (source : Operand α) (note : α)
  /-- `dest = [base+offset]` -/
  | load (dest : Ref α) (source : Address α) (note : α)
  /-- `if test goto :target`, or `if0` when not `positive` -/
  | branch (test : Operand α) (positive : Bool) (target : Ref α) (note : α)
  /-- `goto :target` -/
  | goto (target : Ref α) (note : α)
  /-- `ret value`, or without a value -/
  | ret (value : Option (Operand α)) (note : α)
deriving DecidableEq, Repr

/-- A label of a function stands before the instruction with this index, or at
the end of the function.  An index below zero counts from the end; a label with
such an index can be jumped to, but has no place in the text of the function. -/
structure Label (α : Type) where
  name : String
  index : Int
  note : α
deriving DecidableEq, Repr

/-- A function. -/
structure Function (α : Type) where
  name : String
  params : List (Ref α)
  body : List (Instr α)
  labels : List (Label α)
  note : α
deriving DecidableEq, Repr

/-- A data segment. -/
structure Segment (α : Type) where
  name : String
  isMutable : Bool
  values : List (Datum α)
  note : α
deriving DecidableEq, Repr

/-- A program. -/
structure Program (α : Type) where
  segments : List (Segment α)
  functions : List (Function α)
  note : α
deriving DecidableEq, Repr

variable {α β : Type}

/-! ### Notes -/

/-- The note of an operand. -/
def Operand.note : Operand α → α
  | .var ref => ref.note
  | .int _ note => note
  | .text _ note => note
  | .label ref => ref.note

/-- The note of an instruction. -/
def Instr.note : Instr α → α
  | .assign _ _ note => note
  | .call _ _ _ note => note
  | .apply _ _ _ note => note
  | .store _ _ note => note
  | .load _ _ note => note
  | .branch _ _ _ note => note
  | .goto _ note => note
  | .ret _ note => note

/-- Replaces the note. -/
def Ref.map (f : α → β) (r : Ref α) : Ref β :=
  ⟨r.name, f r.note⟩

/-- Replaces all notes. -/
def Operand.map (f : α → β) : Operand α → Operand β
  | .var ref => .var (ref.map f)
  | .int value note => .int value (f note)
  | .text lexeme note => .text lexeme (f note)
  | .label ref => .label (ref.map f)

/-- Replaces the note. -/
def Callee.map (f : α → β) : Callee α → Callee β
  | .var ref => .var (ref.map f)
  | .label ref => .label (ref.map f)

/-- Replaces the note. -/
def Datum.map (f : α → β) : Datum α → Datum β
  | .int value note => .int value (f note)
  | .label ref => .label (ref.map f)

/-- Replaces all notes. -/
def Address.map (f : α → β) (a : Address α) : Address β :=
  ⟨a.base.map f, a.offset, f a.note⟩

/-- Replaces all notes. -/
def Instr.map (f : α → β) : Instr α → Instr β
  | .assign dest source note => .assign (dest.map f) (source.map f) (f note)
  | .call dest callee args note =>
    .call (dest.map (Ref.map f)) (callee.map f) (args.map (Operand.map f)) (f note)
  | .apply dest op args note =>
    .apply (dest.map (Ref.map f)) op (args.map (Operand.map f)) (f note)
  | .store dest source note => .store (dest.map f) (source.map f) (f note)
  | .load dest source note => .load (dest.map f) (source.map f) (f note)
  | .branch test positive target note => .branch (test.map f) positive (target.map f) (f note)
  | .goto target note => .goto (target.map f) (f note)
  | .ret value note => .ret (value.map (Operand.map f)) (f note)

/-- Replaces the note. -/
def Label.map (f : α → β) (l : Label α) : Label β :=
  ⟨l.name, l.index, f l.note⟩

/-- Replaces all notes. -/
def Function.map (f : α → β) (fn : Function α) : Function β :=
  ⟨fn.name, fn.params.map (Ref.map f), fn.body.map (Instr.map f),
    fn.labels.map (Label.map f), f fn.note⟩

/-- Replaces all notes. -/
def Segment.map (f : α → β) (s : Segment α) : Segment β :=
  ⟨s.name, s.isMutable, s.values.map (Datum.map f), f s.note⟩

/-- Replaces all notes. -/
def Program.map (f : α → β) (p : Program α) : Program β :=
  ⟨p.segments.map (Segment.map f), p.functions.map (Function.map f), f p.note⟩

/-- The program without notes. -/
def Program.erase (p : Program α) : Program Unit :=
  p.map fun _ => ()

/-! Replacing notes twice is replacing them once, so that what is erased does
not depend on the notes. -/

section Composition

variable {γ : Type} (g : β → γ) (f : α → β)

@[simp] theorem Ref.map_map (r : Ref α) : (r.map f).map g = r.map fun a => g (f a) := rfl

@[simp] theorem Operand.map_map (o : Operand α) : (o.map f).map g = o.map fun a => g (f a) := by
  cases o <;> rfl

@[simp] theorem Callee.map_map (c : Callee α) : (c.map f).map g = c.map fun a => g (f a) := by
  cases c <;> rfl

@[simp] theorem Datum.map_map (d : Datum α) : (d.map f).map g = d.map fun a => g (f a) := by
  cases d <;> rfl

@[simp] theorem Address.map_map (a : Address α) :
    (a.map f).map g = a.map fun a => g (f a) := rfl

@[simp] theorem Instr.map_map (i : Instr α) : (i.map f).map g = i.map fun a => g (f a) := by
  cases i <;> simp [Instr.map, Function.comp_def]

@[simp] theorem Label.map_map (l : Label α) : (l.map f).map g = l.map fun a => g (f a) := rfl

@[simp] theorem Function.map_map (fn : Function α) :
    (fn.map f).map g = fn.map fun a => g (f a) := by
  simp [Function.map, Function.comp_def]

@[simp] theorem Segment.map_map (s : Segment α) :
    (s.map f).map g = s.map fun a => g (f a) := by
  simp [Segment.map, Function.comp_def]

@[simp] theorem Program.map_map (p : Program α) :
    (p.map f).map g = p.map fun a => g (f a) := by
  simp [Program.map, Function.comp_def]

/-- What is left without notes does not depend on them. -/
@[simp] theorem Program.erase_map (p : Program α) : (p.map f).erase = p.erase := by
  simp [Program.erase]

end Composition

/-! ### Labels -/

namespace Function

/-- The index that a label stands for; of several labels of one name the first counts. -/
def indexOf? (fn : Function α) (name : String) : Option Int :=
  (fn.labels.find? fun l => l.name == name).map Label.index

/-- The names of the labels with this index, each once. -/
def labelsAt (fn : Function α) (index : Int) : List String :=
  ((fn.labels.filter fun l => l.index == index).map Label.name).eraseDups

/-- The indices that have labels, in increasing order, each with its labels. -/
def labelTable (fn : Function α) : List (Int × List String) :=
  (Sorted.sort (fun a b => a <= b) (fn.labels.map Label.index).eraseDups).map fun index =>
    (index, fn.labelsAt index)

end Function

end Vapor
