/-
Vapor/Proofs/Printing/Basic.lean

The plain text of a program: one item, label or instruction on a line, the segments before the
functions, and each label before the instruction it stands for.  A name, a string or an
integer is written as it is, so not every program can be written; `Program.Writable` says what
has to hold of it.
-/
import Vapor.Program.Basic
import Vapor.Proofs.Source.Words
import Vapor.Text.Integer

namespace Vapor

variable {α : Type}

/-! ### Instructions -/

/-- Words in parentheses, with blanks between them. -/
def writeArgs (words : List String) : String :=
  "(" ++ " ".intercalate words ++ ")"

/-- A label where it is used. -/
def Ref.writeLabel (l : Ref α) : String :=
  ":" ++ l.name

/-- The text of an operand. -/
def Operand.write : Operand α → String
  | .var x => x.name
  | .int n _ => toString n
  | .text lexeme _ => lexeme
  | .label l => l.writeLabel

/-- The text of what is called. -/
def Callee.write : Callee α → String
  | .var x => x.name
  | .label l => l.writeLabel

/-- An offset from zero is not written, and a negative one brings its own sign. -/
def writeOffset (n : Int) : String :=
  if n = 0 then "" else if n < 0 then toString n else "+" ++ toString n

/-- The text of an address. -/
def Address.write (a : Address α) : String :=
  "[" ++ a.base.name ++ (writeOffset a.offset ++ "]")

/-- The beginning of an instruction that may set a variable. -/
def writeDest : Option (Ref α) → String
  | none => ""
  | some x => x.name ++ " = "

/-- The text of an instruction. -/
def Instr.write : Instr α → String
  | .assign x o _ => writeDest (some x) ++ o.write
  | .call dest callee args _ =>
    writeDest dest ++ "call " ++ callee.write ++ writeArgs (args.map Operand.write)
  | .apply dest op args _ => writeDest dest ++ op ++ writeArgs (args.map Operand.write)
  | .store a o _ => a.write ++ " = " ++ o.write
  | .load x a _ => writeDest (some x) ++ a.write
  | .branch o positive l _ =>
    (if positive then "if " else "if0 ") ++ o.write ++ " goto " ++ l.writeLabel
  | .goto l _ => "goto " ++ l.writeLabel
  | .ret none _ => "ret"
  | .ret (some o) _ => "ret " ++ o.write

/-! ### Items -/

/-- The text of a word of a data segment. -/
def Datum.write : Datum α → String
  | .int n _ => toString n
  | .label l => l.writeLabel

/-- The lines of a data segment. -/
def Segment.writeLines (s : Segment α) : List String :=
  ((if s.isMutable then "var " else "const ") ++ s.name) :: s.values.map ("  " ++ ·.write)

/-- The lines of the labels that stand before an instruction. -/
def writeLabels (labels : List (Label α)) (index : Nat) : List String :=
  (labels.filter (·.index == (index : Int))).map (·.name ++ ":")

/-- The lines of the instructions from this index on, with the labels between them. -/
def writeBody (labels : List (Label α)) (index : Nat) : List (Instr α) → List String
  | [] => writeLabels labels index
  | i :: body => writeLabels labels index ++ ("  " ++ i.write) :: writeBody labels (index + 1) body

/-- The lines of a function. -/
def Function.writeLines (f : Function α) : List String :=
  ("func " ++ f.name ++ writeArgs (f.params.map Ref.name)) :: writeBody f.labels 0 f.body

/-- Lines, each with its end. -/
def ofLines (lines : List String) : String :=
  String.join (lines.map (· ++ "\n"))

/-- The text of a program. -/
def Program.write (p : Program α) : String :=
  ofLines (p.segments.flatMap Segment.writeLines ++ p.functions.flatMap Function.writeLines)

/-! ### Programs that can be written -/

/-- The text is an identifier and no keyword. -/
def IsName (s : String) : Prop :=
  Word .ident s.toList []

/-- The text is a string with its quotes. -/
def IsText (s : String) : Prop :=
  Word .text s.toList []

/-- The integer has no more digits than can be read. -/
def IsShort (n : Int) : Prop :=
  (Nat.toDigits 10 n.natAbs).length ≤ Text.maxDigits

def Operand.Writable : Operand α → Prop
  | .var x => IsName x.name
  | .int n _ => IsShort n
  | .text lexeme _ => IsText lexeme
  | .label l => IsName l.name

def Callee.Writable : Callee α → Prop
  | .var x => IsName x.name
  | .label l => IsName l.name

def Address.Writable (a : Address α) : Prop :=
  IsName a.base.name ∧ IsShort a.offset

def Instr.Writable : Instr α → Prop
  | .assign x o _ => IsName x.name ∧ o.Writable
  | .call dest callee args _ =>
    (∀ x ∈ dest, IsName x.name) ∧ callee.Writable ∧ ∀ o ∈ args, o.Writable
  | .apply dest op args _ => (∀ x ∈ dest, IsName x.name) ∧ IsName op ∧ ∀ o ∈ args, o.Writable
  | .store a o _ => a.Writable ∧ o.Writable
  | .load x a _ => IsName x.name ∧ a.Writable
  | .branch o _ l _ => o.Writable ∧ IsName l.name
  | .goto l _ => IsName l.name
  | .ret value _ => ∀ o ∈ value, o.Writable

def Datum.Writable : Datum α → Prop
  | .int n _ => IsShort n
  | .label l => IsName l.name

structure Segment.Writable (s : Segment α) : Prop where
  name : IsName s.name
  values : ∀ d ∈ s.values, d.Writable

/-- Parameters and labels are distinct.  The labels stand before an instruction or at the end of
the function, and are in the order of these places. -/
structure Function.Writable (f : Function α) : Prop where
  name : IsName f.name
  params : ∀ x ∈ f.params, IsName x.name
  body : ∀ i ∈ f.body, i.Writable
  labels : ∀ l ∈ f.labels, IsName l.name
  params_nodup : (f.params.map Ref.name).Nodup
  labels_nodup : (f.labels.map Label.name).Nodup
  labels_index : ∀ l ∈ f.labels, 0 ≤ l.index ∧ l.index ≤ f.body.length
  labels_ordered : f.labels.Pairwise fun a b => a.index ≤ b.index

/-- The names, strings and integers are such that they can be read, and no two items have the
same name. -/
structure Program.Writable (p : Program α) : Prop where
  segments : ∀ s ∈ p.segments, s.Writable
  functions : ∀ f ∈ p.functions, f.Writable
  distinct : (p.segments.map Segment.name ++ p.functions.map Function.name).Nodup

/-! Whether a program can be written is decidable, since words are. -/

instance (s : String) : Decidable (IsName s) :=
  inferInstanceAs (Decidable (Word _ _ _))

instance (s : String) : Decidable (IsText s) :=
  inferInstanceAs (Decidable (Word _ _ _))

instance (n : Int) : Decidable (IsShort n) :=
  inferInstanceAs (Decidable (_ ≤ _))

instance (o : Operand α) : Decidable o.Writable :=
  match o with
  | .var x => inferInstanceAs (Decidable (IsName x.name))
  | .int n _ => inferInstanceAs (Decidable (IsShort n))
  | .text lexeme _ => inferInstanceAs (Decidable (IsText lexeme))
  | .label l => inferInstanceAs (Decidable (IsName l.name))

instance (c : Callee α) : Decidable c.Writable :=
  match c with
  | .var x => inferInstanceAs (Decidable (IsName x.name))
  | .label l => inferInstanceAs (Decidable (IsName l.name))

instance (a : Address α) : Decidable a.Writable :=
  inferInstanceAs (Decidable (_ ∧ _))

instance (i : Instr α) : Decidable i.Writable :=
  match i with
  | .assign _ _ _ => inferInstanceAs (Decidable (_ ∧ _))
  | .call _ _ _ _ => inferInstanceAs (Decidable (_ ∧ _ ∧ _))
  | .apply _ _ _ _ => inferInstanceAs (Decidable (_ ∧ _ ∧ _))
  | .store _ _ _ => inferInstanceAs (Decidable (_ ∧ _))
  | .load _ _ _ => inferInstanceAs (Decidable (_ ∧ _))
  | .branch _ _ _ _ => inferInstanceAs (Decidable (_ ∧ _))
  | .goto l _ => inferInstanceAs (Decidable (IsName l.name))
  | .ret value _ => inferInstanceAs (Decidable (∀ o ∈ value, o.Writable))

instance (d : Datum α) : Decidable d.Writable :=
  match d with
  | .int n _ => inferInstanceAs (Decidable (IsShort n))
  | .label l => inferInstanceAs (Decidable (IsName l.name))

instance (s : Segment α) : Decidable s.Writable :=
  decidable_of_iff (IsName s.name ∧ ∀ d ∈ s.values, d.Writable)
    ⟨fun h => ⟨h.1, h.2⟩, fun h => ⟨h.name, h.values⟩⟩

theorem Function.writable_iff {f : Function α} :
    f.Writable ↔ (IsName f.name ∧ (∀ x ∈ f.params, IsName x.name) ∧ (∀ i ∈ f.body, i.Writable) ∧
      ∀ l ∈ f.labels, IsName l.name) ∧
      ((f.params.map Ref.name).Nodup ∧ (f.labels.map Label.name).Nodup) ∧
      (∀ l ∈ f.labels, 0 ≤ l.index ∧ l.index ≤ f.body.length) ∧
      f.labels.Pairwise fun a b => a.index ≤ b.index := by
  constructor
  · intro h
    exact ⟨⟨h.name, h.params, h.body, h.labels⟩, ⟨h.params_nodup, h.labels_nodup⟩, h.labels_index,
      h.labels_ordered⟩
  · rintro ⟨⟨hname, hparams, hbody, hlabels⟩, ⟨hparams', hlabels'⟩, hindex, hordered⟩
    exact ⟨hname, hparams, hbody, hlabels, hparams', hlabels', hindex, hordered⟩

instance (f : Function α) : Decidable f.Writable :=
  decidable_of_iff _ Function.writable_iff.symm

instance (p : Program α) : Decidable p.Writable :=
  decidable_of_iff ((∀ s ∈ p.segments, s.Writable) ∧ (∀ f ∈ p.functions, f.Writable) ∧
      (p.segments.map Segment.name ++ p.functions.map Function.name).Nodup)
    ⟨fun h => ⟨h.1, h.2.1, h.2.2⟩, fun h => ⟨h.segments, h.functions, h.distinct⟩⟩

end Vapor
