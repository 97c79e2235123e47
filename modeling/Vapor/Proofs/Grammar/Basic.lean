/-
Vapor/Proofs/Grammar/Basic.lean

The grammar of Vapor programs over lists of tokens.  The token for the end of the text
is not in these lists: their end is the end of the text.

Each form relates a list of tokens to what remains of it behind the form, and to what
the form stands for, without notes.  So forms follow one another by sharing a list, and
that a line may also end where the text does (`Eol.atEnd`) says that nothing remains.
Nothing here looks ahead; which form comes next is for the reader to find out.
-/
import Vapor.Program.Basic
import Vapor.Source.Token
import Vapor.Text.Integer

namespace Vapor

namespace Grammar

/-! ### Operands -/

/-- `: NAME` -/
inductive LabelForm : List Token → List Token → Ref Unit → Prop where
  | intro {colon name : Token} {rest : List Token} (hcolon : colon.kind = .colon)
      (hname : name.kind = .ident) : LabelForm (colon :: name :: rest) rest ⟨name.lexeme, ()⟩

/-- An integer whose text can be read. -/
inductive NumberForm : List Token → List Token → Int → Prop where
  | intro {t : Token} {rest : List Token} {n : Int} (ht : t.kind = .integer)
      (hn : Text.readInteger t.lexeme = .ok n) : NumberForm (t :: rest) rest n

/-- A variable, an integer, a string or a label. -/
inductive OperandForm : List Token → List Token → Operand Unit → Prop where
  | var {t : Token} {rest : List Token} (ht : t.kind = .ident) :
      OperandForm (t :: rest) rest (.var ⟨t.lexeme, ()⟩)
  | int {ts rest : List Token} {n : Int} (h : NumberForm ts rest n) :
      OperandForm ts rest (.int n ())
  | text {t : Token} {rest : List Token} (ht : t.kind = .text) :
      OperandForm (t :: rest) rest (.text t.lexeme ())
  | label {ts rest : List Token} {l : Ref Unit} (h : LabelForm ts rest l) :
      OperandForm ts rest (.label l)

/-- Any number of operands. -/
inductive OperandsForm : List Token → List Token → List (Operand Unit) → Prop where
  | nil {ts : List Token} : OperandsForm ts ts []
  | cons {ts us rest : List Token} {o : Operand Unit} {os : List (Operand Unit)}
      (h : OperandForm ts us o) (hrest : OperandsForm us rest os) : OperandsForm ts rest (o :: os)

/-- `( operands )` -/
inductive ArgsForm : List Token → List Token → List (Operand Unit) → Prop where
  | intro {opening close : Token} {ts rest : List Token} {os : List (Operand Unit)}
      (hopening : opening.kind = .lparen) (h : OperandsForm ts (close :: rest) os)
      (hclose : close.kind = .rparen) : ArgsForm (opening :: ts) rest os

/-- Nothing, a plus and an integer, or an integer that begins with a minus. -/
inductive OffsetForm : List Token → List Token → Int → Prop where
  | none {ts : List Token} : OffsetForm ts ts 0
  | plus {t : Token} {ts rest : List Token} {n : Int} (ht : t.kind = .plus)
      (h : NumberForm ts rest n) : OffsetForm (t :: ts) rest n
  | minus {t : Token} {rest : List Token} {n : Int} (h : NumberForm (t :: rest) rest n)
      (hminus : t.lexeme.toList.head? = some '-') : OffsetForm (t :: rest) rest n

/-- `[ NAME offset ]` -/
inductive AddressForm : List Token → List Token → Address Unit → Prop where
  | intro {opening base close : Token} {ts rest : List Token} {n : Int}
      (hopening : opening.kind = .lbracket) (hbase : base.kind = .ident)
      (h : OffsetForm ts (close :: rest) n) (hclose : close.kind = .rbracket) :
      AddressForm (opening :: base :: ts) rest ⟨⟨base.lexeme, ()⟩, n, ()⟩

/-! ### Instructions -/

/-- `NAME =`, or nothing. -/
inductive DestForm : List Token → List Token → Option (Ref Unit) → Prop where
  | none {ts : List Token} : DestForm ts ts none
  | some {x eq : Token} {rest : List Token} (hx : x.kind = .ident) (heq : eq.kind = .assign) :
      DestForm (x :: eq :: rest) rest (some ⟨x.lexeme, ()⟩)

/-- What is called: a variable or a label. -/
inductive CalleeForm : List Token → List Token → Callee Unit → Prop where
  | var {t : Token} {rest : List Token} (ht : t.kind = .ident) :
      CalleeForm (t :: rest) rest (.var ⟨t.lexeme, ()⟩)
  | label {ts rest : List Token} {l : Ref Unit} (h : LabelForm ts rest l) :
      CalleeForm ts rest (.label l)

/-- The instructions. -/
inductive InstrForm : List Token → List Token → Instr Unit → Prop where
  /-- `NAME = operand` -/
  | assign {ts us rest : List Token} {x : Ref Unit} {o : Operand Unit}
      (hx : DestForm ts us (some x)) (ho : OperandForm us rest o) :
      InstrForm ts rest (.assign x o ())
  /-- `NAME = address` -/
  | load {ts us rest : List Token} {x : Ref Unit} {a : Address Unit}
      (hx : DestForm ts us (some x)) (ha : AddressForm us rest a) :
      InstrForm ts rest (.load x a ())
  /-- `address = operand` -/
  | store {eq : Token} {ts us rest : List Token} {a : Address Unit} {o : Operand Unit}
      (ha : AddressForm ts (eq :: us) a) (heq : eq.kind = .assign) (ho : OperandForm us rest o) :
      InstrForm ts rest (.store a o ())
  /-- `NAME = call callee args`, or without a destination -/
  | call {keyword : Token} {ts us vs rest : List Token} {dest : Option (Ref Unit)}
      {callee : Callee Unit} {os : List (Operand Unit)} (hdest : DestForm ts (keyword :: us) dest)
      (hkeyword : keyword.kind = .call) (hcallee : CalleeForm us vs callee)
      (hargs : ArgsForm vs rest os) : InstrForm ts rest (.call dest callee os ())
  /-- `NAME = OPERATION args`, or without a destination -/
  | apply {op : Token} {ts us rest : List Token} {dest : Option (Ref Unit)}
      {os : List (Operand Unit)} (hdest : DestForm ts (op :: us) dest) (hop : op.kind = .ident)
      (hargs : ArgsForm us rest os) : InstrForm ts rest (.apply dest op.lexeme os ())
  /-- `if operand goto label`, or `if0` if it is not `positive` -/
  | branch {keyword goto : Token} {ts us rest : List Token} {o : Operand Unit} {positive : Bool}
      {l : Ref Unit} (hkeyword : keyword.kind = if positive then .ifTrue else .ifZero)
      (ho : OperandForm ts (goto :: us) o) (hgoto : goto.kind = .goto) (hl : LabelForm us rest l) :
      InstrForm (keyword :: ts) rest (.branch o positive l ())
  /-- `goto label` -/
  | goto {keyword : Token} {ts rest : List Token} {l : Ref Unit} (hkeyword : keyword.kind = .goto)
      (hl : LabelForm ts rest l) : InstrForm (keyword :: ts) rest (.goto l ())
  /-- `ret` -/
  | ret {keyword : Token} {rest : List Token} (hkeyword : keyword.kind = .ret) :
      InstrForm (keyword :: rest) rest (.ret none ())
  /-- `ret operand` -/
  | retValue {keyword : Token} {ts rest : List Token} {o : Operand Unit}
      (hkeyword : keyword.kind = .ret) (ho : OperandForm ts rest o) :
      InstrForm (keyword :: ts) rest (.ret (some o) ())

/-! ### Segments -/

/-- The end of a line, for which the end of the text will do. -/
inductive Eol : List Token → List Token → Prop where
  | newline {t : Token} {rest : List Token} (ht : t.kind = .newline) : Eol (t :: rest) rest
  | atEnd : Eol [] []

/-- A word of a data segment: a label or an integer. -/
inductive DatumForm : List Token → List Token → Datum Unit → Prop where
  | int {ts rest : List Token} {n : Int} (h : NumberForm ts rest n) : DatumForm ts rest (.int n ())
  | label {ts rest : List Token} {l : Ref Unit} (h : LabelForm ts rest l) :
      DatumForm ts rest (.label l)

/-- One or more words. -/
inductive RowForm : List Token → List Token → List (Datum Unit) → Prop where
  | one {ts rest : List Token} {d : Datum Unit} (h : DatumForm ts rest d) : RowForm ts rest [d]
  | more {ts us rest : List Token} {d : Datum Unit} {ds : List (Datum Unit)}
      (h : DatumForm ts us d) (hrest : RowForm us rest ds) : RowForm ts rest (d :: ds)

/-- The lines of a data segment, of which some may be empty. -/
inductive RowsForm : List Token → List Token → List (Datum Unit) → Prop where
  | nil {ts : List Token} : RowsForm ts ts []
  | blank {t : Token} {ts rest : List Token} {ds : List (Datum Unit)} (ht : t.kind = .newline)
      (hrest : RowsForm ts rest ds) : RowsForm (t :: ts) rest ds
  | row {ts us vs rest : List Token} {ds es : List (Datum Unit)} (h : RowForm ts us ds)
      (heol : Eol us vs) (hrest : RowsForm vs rest es) : RowsForm ts rest (ds ++ es)

/-- `const NAME` or `var NAME`, and the lines below. -/
inductive SegmentForm : List Token → List Token → Segment Unit → Prop where
  | intro {keyword name : Token} {ts us rest : List Token} {isMutable : Bool}
      {ds : List (Datum Unit)} (hkeyword : keyword.kind = if isMutable then .var else .const)
      (hname : name.kind = .ident) (heol : Eol ts us) (h : RowsForm us rest ds) :
      SegmentForm (keyword :: name :: ts) rest ⟨name.lexeme, isMutable, ds, ()⟩

/-! ### Functions -/

/-- Any number of names. -/
inductive ParamsForm : List Token → List Token → List (Ref Unit) → Prop where
  | nil {ts : List Token} : ParamsForm ts ts []
  | cons {name : Token} {ts rest : List Token} {xs : List (Ref Unit)} (hname : name.kind = .ident)
      (hrest : ParamsForm ts rest xs) : ParamsForm (name :: ts) rest (⟨name.lexeme, ()⟩ :: xs)

/-- The lines of a function behind so many instructions, of which some may be empty.  A
label stands for the number of instructions before it. -/
inductive LinesForm :
    Nat → List Token → List Token → List (Instr Unit) → List (Label Unit) → Prop where
  | nil {index : Nat} {ts : List Token} : LinesForm index ts ts [] []
  | blank {index : Nat} {t : Token} {ts rest : List Token} {body : List (Instr Unit)}
      {labels : List (Label Unit)} (ht : t.kind = .newline)
      (hrest : LinesForm index ts rest body labels) : LinesForm index (t :: ts) rest body labels
  | label {index : Nat} {name colon : Token} {ts us rest : List Token} {body : List (Instr Unit)}
      {labels : List (Label Unit)} (hname : name.kind = .ident) (hcolon : colon.kind = .colon)
      (heol : Eol ts us) (hrest : LinesForm index us rest body labels) :
      LinesForm index (name :: colon :: ts) rest body (⟨name.lexeme, index, ()⟩ :: labels)
  | instr {index : Nat} {ts us vs rest : List Token} {i : Instr Unit} {body : List (Instr Unit)}
      {labels : List (Label Unit)} (h : InstrForm ts us i) (heol : Eol us vs)
      (hrest : LinesForm (index + 1) vs rest body labels) :
      LinesForm index ts rest (i :: body) labels

/-- `func NAME ( names )`, and the lines below. -/
inductive FunctionForm : List Token → List Token → Function Unit → Prop where
  | intro {keyword name opening close : Token} {ts us vs rest : List Token}
      {params : List (Ref Unit)} {body : List (Instr Unit)} {labels : List (Label Unit)}
      (hkeyword : keyword.kind = .func) (hname : name.kind = .ident)
      (hopening : opening.kind = .lparen) (hparams : ParamsForm ts (close :: us) params)
      (hclose : close.kind = .rparen) (heol : Eol us vs) (h : LinesForm 0 vs rest body labels)
      (hdistinct : (params.map Ref.name).Nodup) (hlabels : (labels.map Label.name).Nodup) :
      FunctionForm (keyword :: name :: opening :: ts) rest ⟨name.lexeme, params, body, labels, ()⟩

/-! ### Programs -/

/-- Segments, functions and empty lines up to the end of the text. -/
inductive ItemsForm :
    List Token → List (Segment Unit) → List (Function Unit) → Prop where
  | nil : ItemsForm [] [] []
  | blank {t : Token} {ts : List Token} {segments : List (Segment Unit)}
      {functions : List (Function Unit)} (ht : t.kind = .newline)
      (hrest : ItemsForm ts segments functions) : ItemsForm (t :: ts) segments functions
  | segment {ts us : List Token} {s : Segment Unit} {segments : List (Segment Unit)}
      {functions : List (Function Unit)} (h : SegmentForm ts us s)
      (hrest : ItemsForm us segments functions) : ItemsForm ts (s :: segments) functions
  | function {ts us : List Token} {f : Function Unit} {segments : List (Segment Unit)}
      {functions : List (Function Unit)} (h : FunctionForm ts us f)
      (hrest : ItemsForm us segments functions) : ItemsForm ts segments (f :: functions)

/-- The tokens derive the program: they are its segments and functions, no two of which
have the same name. -/
structure Derives (ts : List Token) (p : Program Unit) : Prop where
  items : ItemsForm ts p.segments p.functions
  distinct : (p.segments.map Segment.name ++ p.functions.map Function.name).Nodup

end Grammar

end Vapor
