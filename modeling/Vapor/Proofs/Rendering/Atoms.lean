/-
Vapor/Proofs/Rendering/Atoms.lean

A written line taken apart into atoms: words, strings and single marks.

Where no two words stand side by side, atoms can be told apart, so they are determined by
their characters (`Legible.unique`), and none of them goes beyond its line.  `Line.atoms` lists
the atoms of a line, and `spelling_line` says that the line is written atom by atom.
-/
import Vapor.Machine.Line
import Vapor.Proofs.Printing.Basic
import Vapor.Proofs.Source.Numbers

namespace Vapor

/-! ### Atoms -/

/-- The smallest parts of a written line. -/
inductive Atom where
  /-- A row of characters that names and numbers are made of. -/
  | word (cs : List Char)
  /-- A string, quotes included. -/
  | quote (cs : List Char)
  /-- A character that stands for itself. -/
  | mark (c : Char)
deriving DecidableEq, Repr

namespace Atom

def chars : Atom → List Char
  | word cs => cs
  | quote cs => cs
  | mark c => [c]

@[simp] theorem chars_word (cs : List Char) : (word cs).chars = cs := rfl
@[simp] theorem chars_quote (cs : List Char) : (quote cs).chars = cs := rfl
@[simp] theorem chars_mark (c : Char) : (mark c).chars = [c] := rfl

def isWord : Atom → Bool
  | word _ => true
  | _ => false

end Atom

/-- The characters are such that they make up a word. -/
def IsWord (w : List Char) : Prop :=
  w ≠ [] ∧ ∀ c ∈ w, isIdentPart c = true

instance (w : List Char) : Decidable (IsWord w) :=
  decidable_of_iff ((!w.isEmpty && w.all isIdentPart) = true) (by simp [IsWord])

/-- The characters of several atoms. -/
def spelling (as : List Atom) : List Char :=
  as.flatMap Atom.chars

@[simp] theorem spelling_nil : spelling [] = [] := rfl

@[simp] theorem spelling_cons (a : Atom) (as : List Atom) :
    spelling (a :: as) = a.chars ++ spelling as := rfl

@[simp] theorem spelling_append (as bs : List Atom) :
    spelling (as ++ bs) = spelling as ++ spelling bs := by
  simp [spelling]

/-- Atoms that can be told apart: no word stands behind another one. -/
inductive Legible : List Atom → Prop where
  | nil : Legible []
  | word {w : List Char} {as : List Atom} (hw : IsWord w)
      (hnext : ∀ a ∈ as.head?, a.isWord = false) (h : Legible as) : Legible (.word w :: as)
  | quote {cs : List Char} {as : List Atom} (hcs : StringTail cs) (h : Legible as) :
      Legible (.quote ('"' :: cs) :: as)
  | mark {c : Char} {as : List Atom} (hc : isIdentPart c = false ∧ c ≠ '"' ∧ c ≠ '\n')
      (h : Legible as) : Legible (.mark c :: as)

/-- A string is over where its closing quote stands. -/
theorem StringTail.append_inj {cs ds rest rest' : List Char} (h : StringTail cs)
    (h' : StringTail ds) (heq : cs ++ rest = ds ++ rest') : cs = ds ∧ rest = rest' := by
  induction h generalizing ds with
  | close =>
    cases h' with
    | close => simpa using heq
    | escape => simp at heq
    | plain hd => exact absurd (List.cons.inj heq).1.symm hd.1
  | @escape c cs _ _ ih =>
    cases h' with
    | close => simp at heq
    | @escape d ds _ h' =>
      obtain ⟨rfl, htail⟩ : c = d ∧ cs ++ rest = ds ++ rest' := by simpa using heq
      obtain ⟨rfl, hrest⟩ := ih h' htail
      exact ⟨rfl, hrest⟩
    | plain hd => exact absurd (List.cons.inj heq).1.symm hd.2.1
  | @plain c cs hc _ ih =>
    cases h' with
    | close => exact absurd (List.cons.inj heq).1 hc.1
    | escape => exact absurd (List.cons.inj heq).1 hc.2.1
    | @plain d ds _ h' =>
      obtain ⟨rfl, htail⟩ := List.cons.inj heq
      obtain ⟨rfl, hrest⟩ := ih h' htail
      exact ⟨rfl, hrest⟩

namespace Legible

variable {as bs : List Atom}

/-- Where no word begins, no character begins that a word could go on with. -/
theorem head (h : Legible as) (hword : ∀ a ∈ as.head?, a.isWord = false) :
    ∀ c ∈ (spelling as).head?, isIdentPart c = false := by
  cases h with
  | nil => exact nofun
  | word => exact nomatch hword _ rfl
  | quote =>
    rintro _ ⟨⟩
    decide
  | mark hc =>
    rintro _ ⟨⟩
    exact hc.1

theorem tail {a : Atom} (h : Legible (a :: as)) : Legible as := by
  cases h <;> assumption

theorem chars_ne_nil {a : Atom} (h : Legible (a :: as)) : a.chars ≠ [] := by
  cases h with
  | word hw => exact hw.1
  | quote => exact List.cons_ne_nil _ _
  | mark => exact List.cons_ne_nil _ _

/-- The first atom is determined by the characters.  Its kind can be seen from the first
of them, and where it ends from what follows. -/
theorem chars_inj {a b : Atom} (ha : Legible (a :: as)) (hb : Legible (b :: bs))
    (h : a.chars ++ spelling as = b.chars ++ spelling bs) : a = b ∧ spelling as = spelling bs := by
  have hquote : isIdentPart '"' = false := by decide
  cases ha with
  | word hw hnext ha =>
    obtain ⟨c, w, rfl⟩ := List.exists_cons_of_ne_nil hw.1
    have hc := hw.2 c List.mem_cons_self
    cases hb with
    | @word w' _ hw' hnext' hb =>
      -- both are the first characters that a word is made of
      have hfirst := takeWhile_append_eq_iff.mpr ⟨hw.2, ha.head hnext⟩
      have hfirst' := takeWhile_append_eq_iff.mpr ⟨hw'.2, hb.head hnext'⟩
      change c :: w ++ spelling as = w' ++ spelling bs at h
      obtain rfl : c :: w = w' := by rw [← hfirst, ← hfirst', h]
      exact ⟨rfl, List.append_cancel_left h⟩
    | quote =>
      obtain rfl := (List.cons.inj h).1
      exact nomatch hc.symm.trans hquote
    | mark hd =>
      obtain rfl := (List.cons.inj h).1
      exact nomatch hc.symm.trans hd.1
  | quote hcs =>
    cases hb with
    | word hw =>
      obtain ⟨d, w, rfl⟩ := List.exists_cons_of_ne_nil hw.1
      obtain rfl := (List.cons.inj h).1
      exact nomatch (hw.2 _ List.mem_cons_self).symm.trans hquote
    | quote hds =>
      obtain ⟨rfl, hrest⟩ := hcs.append_inj hds (List.cons.inj h).2
      exact ⟨rfl, hrest⟩
    | mark hd => exact absurd (List.cons.inj h).1.symm hd.2.1
  | mark hc =>
    cases hb with
    | word hw =>
      obtain ⟨d, w, rfl⟩ := List.exists_cons_of_ne_nil hw.1
      obtain rfl := (List.cons.inj h).1
      exact nomatch (hw.2 _ List.mem_cons_self).symm.trans hc.1
    | quote => exact absurd (List.cons.inj h).1 hc.2.1
    | mark =>
      obtain ⟨rfl, hrest⟩ := List.cons.inj h
      exact ⟨rfl, hrest⟩

/-- **Atoms are determined by their characters**, if they can be told apart. -/
theorem unique (ha : Legible as) (hb : Legible bs) (h : spelling as = spelling bs) : as = bs := by
  induction as generalizing bs with
  | nil =>
    cases bs with
    | nil => rfl
    | cons b bs => exact absurd (List.append_eq_nil_iff.mp h.symm).1 hb.chars_ne_nil
  | cons a as ih =>
    cases bs with
    | nil => exact absurd (List.append_eq_nil_iff.mp h).1 ha.chars_ne_nil
    | cons b bs =>
      obtain ⟨rfl, hrest⟩ := chars_inj ha hb h
      rw [ih ha.tail hb.tail hrest]

/-- No atom goes beyond its line. -/
theorem newline_not_mem (h : Legible as) : '\n' ∉ spelling as := by
  induction h with
  | nil => exact List.not_mem_nil
  | word hw _ _ ih =>
    rw [spelling_cons, List.mem_append, not_or]
    refine ⟨fun hmem => ?_, ih⟩
    exact absurd (hw.2 _ hmem) (by decide)
  | quote hcs _ ih =>
    rw [spelling_cons, List.mem_append, not_or]
    exact ⟨by simpa using hcs.newline_not_mem, ih⟩
  | mark hc _ ih =>
    rw [spelling_cons, List.mem_append, not_or]
    exact ⟨by simpa using hc.2.2.symm, ih⟩

end Legible

/-! ### The atoms of a line -/

namespace Machine

/-- The digits of a number. -/
def digits (n : Nat) : Atom :=
  .word (Nat.toDigits 10 n)

def intAtoms (n : Int) : List Atom :=
  if 0 ≤ n then [digits n.natAbs] else [.mark '-', digits n.natAbs]

def registerAtoms (r : Register) : List Atom :=
  [.mark '$', .word r.name.toList.tail]

def labelAtoms (name : String) : List Atom :=
  [.mark ':', .word name.toList]

/-- A slot of the frame. -/
def slotAtoms (area : String) (offset : Nat) : List Atom :=
  [.word area.toList, .mark '[', digits offset, .mark ']']

/-- What stands behind the base of a place in memory. -/
def offsetAtoms (n : Int) : List Atom :=
  if n = 0 then [.mark ']']
  else [.mark (if n < 0 then '-' else '+'), digits n.natAbs, .mark ']']

def memoryAtoms (base : Register) (offset : Int) : List Atom :=
  .mark '[' :: registerAtoms base ++ offsetAtoms offset

def Value.atoms : Value → List Atom
  | register r => registerAtoms r
  | int n => intAtoms n
  | label name => labelAtoms name
  | text lexeme => [.quote lexeme.toList]

/-- What stands behind an argument. -/
def moreAtoms : List Value → List Atom
  | [] => [.mark ')']
  | v :: vs => .mark ' ' :: v.atoms ++ moreAtoms vs

/-- What stands behind the opening parenthesis. -/
def argAtoms : List Value → List Atom
  | [] => [.mark ')']
  | v :: vs => v.atoms ++ moreAtoms vs

def applicationAtoms (op : String) (args : List Value) : List Atom :=
  .word op.toList :: .mark '(' :: argAtoms args

def Dest.atoms : Dest → List Atom
  | register r => registerAtoms r
  | localSlot offset => slotAtoms "local" offset
  | outSlot offset => slotAtoms "out" offset
  | memory base offset => memoryAtoms base offset

def Source.atoms : Source → List Atom
  | value v => v.atoms
  | localSlot offset => slotAtoms "local" offset
  | inSlot offset => slotAtoms "in" offset
  | memory base offset => memoryAtoms base offset
  | apply op args => applicationAtoms op args

def Target.atoms : Target → List Atom
  | register r => registerAtoms r
  | label name => labelAtoms name

/-- A word and the blank behind it. -/
def spacedAtoms (w : String) : List Atom :=
  [.word w.toList, .mark ' ']

/-- A size in a header. -/
def sizeAtoms (area : String) (size : Nat) : List Atom :=
  spacedAtoms area ++ [digits size]

def Line.atoms : Line → List Atom
  | header name frame =>
    spacedAtoms "func" ++ spacedAtoms name ++ .mark '[' :: sizeAtoms "in" frame.ins ++
      .mark ',' :: .mark ' ' :: sizeAtoms "out" frame.outs ++
      .mark ',' :: .mark ' ' :: sizeAtoms "local" frame.locals ++ [.mark ']']
  | label name => [.word name.toList, .mark ':']
  | assign dest source => dest.atoms ++ .mark ' ' :: .mark '=' :: .mark ' ' :: source.atoms
  | apply op args => applicationAtoms op args
  | call target => spacedAtoms "call" ++ target.atoms
  | branch positive test target =>
    spacedAtoms (if positive then "if" else "if0") ++ test.atoms ++
      .mark ' ' :: spacedAtoms "goto" ++ labelAtoms target
  | goto target => spacedAtoms "goto" ++ labelAtoms target
  | ret => [.word "ret".toList]

/-! ### Lines are written atom by atom -/

theorem toList_name (r : Register) : r.name.toList = '$' :: r.name.toList.tail := by
  cases r with
  | argument i => revert i; decide +kernel
  | result => rfl
  | callerSaved i => revert i; decide +kernel
  | calleeSaved i => revert i; decide +kernel
  | scratch i => revert i; decide +kernel

@[simp] theorem chars_digits (n : Nat) : (digits n).chars = Nat.toDigits 10 n := rfl

@[simp] theorem toList_repr_natCast (n : Nat) : (n : Int).repr.toList = Nat.toDigits 10 n :=
  Text.toList_toString n

theorem spelling_intAtoms (n : Int) : spelling (intAtoms n) = (toString n).toList := by
  rw [Text.toList_toString, intAtoms]
  split <;> simp

theorem spelling_registerAtoms (r : Register) : spelling (registerAtoms r) = r.name.toList := by
  rw [toList_name]
  simp [registerAtoms]

theorem spelling_labelAtoms (name : String) :
    spelling (labelAtoms name) = (labelText name).toList := by
  show _ = (":" ++ name).toList
  simp [labelAtoms]

theorem spelling_value (v : Value) : spelling v.atoms = v.render.toList := by
  cases v with
  | register r => exact spelling_registerAtoms r
  | int n => exact spelling_intAtoms n
  | label name => exact spelling_labelAtoms name
  | text lexeme => simp [Value.atoms, Value.render]

theorem spelling_slotAtoms (area : String) (offset : Nat) :
    spelling (slotAtoms area offset) = (area ++ "[" ++ toString (offset : Int) ++ "]").toList := by
  simp [slotAtoms]

theorem spelling_memoryAtoms (base : Register) (offset : Int) :
    spelling (memoryAtoms base offset) = (memory base offset).toList := by
  unfold memory memoryAtoms offsetAtoms
  split
  · show _ = ("[" ++ base.name ++ "]").toList
    simp [spelling_registerAtoms]
  split
  · show _ = ("[" ++ base.name ++ toString offset ++ "]").toList
    rw [String.toList_append, String.toList_append, Text.toList_toString, if_neg (by omega)]
    simp [spelling_registerAtoms]
  · show _ = ("[" ++ base.name ++ "+" ++ toString offset ++ "]").toList
    rw [String.toList_append, String.toList_append, Text.toList_toString, if_pos (by omega)]
    simp [spelling_registerAtoms]

theorem spelling_argAtoms (args : List Value) : spelling (argAtoms args)
    = (String.intercalate " " (args.map Value.render)).toList ++ [')'] := by
  cases args with
  | nil => rfl
  | cons v vs =>
    show spelling (v.atoms ++ moreAtoms vs) = _
    rw [spelling_append, spelling_value]
    induction vs generalizing v with
    | nil => simp [moreAtoms]
    | cons w vs ih =>
      have hrest := ih w
      rw [List.map_cons] at hrest
      rw [List.map_cons, List.map_cons, String.intercalate_cons_cons, String.toList_append,
        String.toList_append, List.append_assoc, ← hrest]
      simp [moreAtoms, spelling_value]

theorem spelling_applicationAtoms (op : String) (args : List Value) :
    spelling (applicationAtoms op args) = (application op (args.map Value.render)).toList := by
  simp [applicationAtoms, application, spelling_argAtoms]

theorem spelling_dest (d : Dest) : spelling d.atoms = d.render.toList := by
  cases d with
  | register r => exact spelling_registerAtoms r
  | localSlot offset => exact spelling_slotAtoms "local" offset
  | outSlot offset => exact spelling_slotAtoms "out" offset
  | memory base offset => exact spelling_memoryAtoms base offset

theorem spelling_source (s : Source) : spelling s.atoms = s.render.toList := by
  cases s with
  | value v => exact spelling_value v
  | localSlot offset => exact spelling_slotAtoms "local" offset
  | inSlot offset => exact spelling_slotAtoms "in" offset
  | memory base offset => exact spelling_memoryAtoms base offset
  | apply op args => exact spelling_applicationAtoms op args

theorem spelling_target (t : Target) : spelling t.atoms = t.render.toList := by
  cases t with
  | register r => exact spelling_registerAtoms r
  | label name => exact spelling_labelAtoms name

theorem spelling_spacedAtoms (w : String) : spelling (spacedAtoms w) = (w ++ " ").toList := by
  simp [spacedAtoms]

theorem spelling_sizeAtoms (area : String) (size : Nat) :
    spelling (sizeAtoms area size) = (area ++ " " ++ toString (size : Int)).toList := by
  simp [sizeAtoms, spelling_spacedAtoms]

/-- The atoms of a line make up its text. -/
theorem spelling_line (l : Line) : spelling l.atoms = l.render.toList := by
  cases l with
  | header name frame =>
    show _ = ("func " ++ name ++ " [in " ++ toString (frame.ins : Int) ++ ", out " ++
      toString (frame.outs : Int) ++ ", local " ++ toString (frame.locals : Int) ++ "]").toList
    simp [Line.atoms, spelling_spacedAtoms, spelling_sizeAtoms]
  | label name =>
    show _ = (name ++ ":").toList
    simp [Line.atoms]
  | assign dest source =>
    show _ = (dest.render ++ " = " ++ source.render).toList
    simp [Line.atoms, spelling_dest, spelling_source]
  | apply op args => exact spelling_applicationAtoms op args
  | call target =>
    show _ = ("call " ++ target.render).toList
    simp [Line.atoms, spelling_spacedAtoms, spelling_target]
  | branch positive test target =>
    show _ = ((if positive then "if " else "if0 ") ++ test.render ++ " goto " ++
      labelText target).toList
    cases positive <;>
      simp [Line.atoms, spelling_spacedAtoms, spelling_value, spelling_labelAtoms]
  | goto target =>
    show _ = ("goto " ++ labelText target).toList
    simp [Line.atoms, spelling_spacedAtoms, spelling_labelAtoms]
  | ret => rfl

end Machine

end Vapor
