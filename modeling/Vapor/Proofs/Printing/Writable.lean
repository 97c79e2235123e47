/-
Vapor/Proofs/Printing/Writable.lean

What has been read can be written (`writable_of_parse`).  Names and strings are lexemes
of tokens.  The value of a number has no more digits than the number was written with,
so it is not too long to be read again.  Labels come in the order of their places.

That a program is read from tokens means two things.  All numbers among them could be
read (`readable_of_parse`), and so they derive the program (`derives_of_parse`).  From
there on we go along the derivation: every form reads from some tokens up to a part at
their end, and what it stands for can be written if the tokens are words (`Worded`).
-/
import Vapor.Proofs.Grammar.Exact
import Vapor.Proofs.Grammar.Faults
import Vapor.Proofs.Printing.Basic
import Vapor.Proofs.Source.Layout
import Vapor.Proofs.Source.Numbers

namespace Vapor

open Grammar

/-! ### Tokens -/

/-- The tokens are words, apart from the ends of lines and of the text. -/
def Worded (ts : List Token) : Prop :=
  ∀ t ∈ ts, t.kind ≠ .newline → t.kind ≠ .eof → Word t.kind t.lexeme.toList []

namespace Worded

variable {ts us : List Token} {t : Token}

theorem mono (h : Worded ts) (hus : us <:+ ts) : Worded us :=
  fun t ht => h t (hus.subset ht)

theorem tail (h : Worded (t :: ts)) : Worded ts :=
  h.mono (List.suffix_cons t ts)

theorem isName (h : Worded (t :: ts)) (ht : t.kind = .ident) : IsName t.lexeme := by
  have hword := h t List.mem_cons_self (by simp [ht]) (by simp [ht])
  rwa [ht] at hword

theorem isText (h : Worded (t :: ts)) (ht : t.kind = .text) : IsText t.lexeme := by
  have hword := h t List.mem_cons_self (by simp [ht]) (by simp [ht])
  rwa [ht] at hword

/-- A number of the text has a value that is short enough. -/
theorem isShort (h : Worded (t :: ts)) (ht : t.kind = .integer) {n : Int}
    (hn : Text.readInteger t.lexeme = .ok n) : IsShort n := by
  have hword := h t List.mem_cons_self (by simp [ht]) (by simp [ht])
  rw [ht] at hword
  apply hword.length_toDigits
  rwa [String.ofList_toList]

end Worded

theorem Genuine.worded {ts : List Token} (h : Genuine ts) : Worded ts := by
  intro t ht hnewline heof
  obtain ⟨rest, hword⟩ := h.words t ht ⟨hnewline, heof⟩
  exact hword.before nofun

/-! ### Forms -/

namespace Grammar

variable {ts us : List Token}

theorem LabelForm.writable {l : Ref Unit} (h : LabelForm ts us l) (hts : Worded ts) :
    us <:+ ts ∧ IsName l.name := by
  cases h with
  | intro _ hname =>
    exact ⟨(List.suffix_cons _ _).trans (List.suffix_cons _ _), hts.tail.isName hname⟩

theorem NumberForm.writable {n : Int} (h : NumberForm ts us n) (hts : Worded ts) :
    us <:+ ts ∧ IsShort n := by
  cases h with
  | intro ht hn => exact ⟨List.suffix_cons _ _, hts.isShort ht hn⟩

theorem OperandForm.writable {o : Operand Unit} (h : OperandForm ts us o) (hts : Worded ts) :
    us <:+ ts ∧ o.Writable := by
  cases h with
  | var ht => exact ⟨List.suffix_cons _ _, hts.isName ht⟩
  | int h => exact h.writable hts
  | text ht => exact ⟨List.suffix_cons _ _, hts.isText ht⟩
  | label h => exact h.writable hts

theorem OperandsForm.writable {os : List (Operand Unit)} (h : OperandsForm ts us os)
    (hts : Worded ts) : us <:+ ts ∧ ∀ o ∈ os, o.Writable := by
  induction h with
  | nil => exact ⟨List.suffix_refl _, List.forall_mem_nil _⟩
  | cons h _ ih =>
    obtain ⟨hus, ho⟩ := h.writable hts
    obtain ⟨hrest, hos⟩ := ih (hts.mono hus)
    exact ⟨hrest.trans hus, List.forall_mem_cons.mpr ⟨ho, hos⟩⟩

theorem ArgsForm.writable {os : List (Operand Unit)} (h : ArgsForm ts us os) (hts : Worded ts) :
    us <:+ ts ∧ ∀ o ∈ os, o.Writable := by
  cases h with
  | intro _ h _ =>
    obtain ⟨hclose, hos⟩ := h.writable hts.tail
    exact ⟨((List.suffix_cons _ _).trans hclose).trans (List.suffix_cons _ _), hos⟩

theorem OffsetForm.writable {n : Int} (h : OffsetForm ts us n) (hts : Worded ts) :
    us <:+ ts ∧ IsShort n := by
  cases h with
  | none => exact ⟨List.suffix_refl _, by decide⟩
  | plus _ h =>
    obtain ⟨hus, hn⟩ := h.writable hts.tail
    exact ⟨hus.trans (List.suffix_cons _ _), hn⟩
  | minus h _ => exact h.writable hts

theorem AddressForm.writable {a : Address Unit} (h : AddressForm ts us a) (hts : Worded ts) :
    us <:+ ts ∧ a.Writable := by
  cases h with
  | intro _ hbase h _ =>
    obtain ⟨hclose, hn⟩ := h.writable hts.tail.tail
    have hus := (List.suffix_cons _ _).trans hclose
    exact ⟨(hus.trans (List.suffix_cons _ _)).trans (List.suffix_cons _ _),
      hts.tail.isName hbase, hn⟩

theorem DestForm.writable {dest : Option (Ref Unit)} (h : DestForm ts us dest) (hts : Worded ts) :
    us <:+ ts ∧ ∀ x ∈ dest, IsName x.name := by
  cases h with
  | none => exact ⟨List.suffix_refl _, nofun⟩
  | some hx _ =>
    refine ⟨(List.suffix_cons _ _).trans (List.suffix_cons _ _), ?_⟩
    rintro _ ⟨⟩
    exact hts.isName hx

theorem CalleeForm.writable {c : Callee Unit} (h : CalleeForm ts us c) (hts : Worded ts) :
    us <:+ ts ∧ c.Writable := by
  cases h with
  | var ht => exact ⟨List.suffix_cons _ _, hts.isName ht⟩
  | label h => exact h.writable hts

theorem InstrForm.writable {i : Instr Unit} (h : InstrForm ts us i) (hts : Worded ts) :
    us <:+ ts ∧ i.Writable := by
  cases h with
  | assign hx ho =>
    obtain ⟨hsource, hname⟩ := hx.writable hts
    obtain ⟨hus, ho⟩ := ho.writable (hts.mono hsource)
    exact ⟨hus.trans hsource, hname _ rfl, ho⟩
  | load hx ha =>
    obtain ⟨hsource, hname⟩ := hx.writable hts
    obtain ⟨hus, ha⟩ := ha.writable (hts.mono hsource)
    exact ⟨hus.trans hsource, hname _ rfl, ha⟩
  | store ha _ ho =>
    obtain ⟨hassign, ha⟩ := ha.writable hts
    have hsource := (List.suffix_cons _ _).trans hassign
    obtain ⟨hus, ho⟩ := ho.writable (hts.mono hsource)
    exact ⟨hus.trans hsource, ha, ho⟩
  | call hdest _ hcallee hargs =>
    obtain ⟨hkeyword, hdest⟩ := hdest.writable hts
    have hbehind := (List.suffix_cons _ _).trans hkeyword
    obtain ⟨hvs, hcallee⟩ := hcallee.writable (hts.mono hbehind)
    obtain ⟨hus, hargs⟩ := hargs.writable (hts.mono (hvs.trans hbehind))
    exact ⟨hus.trans (hvs.trans hbehind), hdest, hcallee, hargs⟩
  | apply hdest hop hargs =>
    obtain ⟨hname, hdest⟩ := hdest.writable hts
    have hbehind := (List.suffix_cons _ _).trans hname
    obtain ⟨hus, hargs⟩ := hargs.writable (hts.mono hbehind)
    exact ⟨hus.trans hbehind, hdest, (hts.mono hname).isName hop, hargs⟩
  | branch _ ho _ hl =>
    obtain ⟨hgoto, ho⟩ := ho.writable hts.tail
    have hbehind := (List.suffix_cons _ _).trans hgoto
    obtain ⟨hus, hl⟩ := hl.writable (hts.tail.mono hbehind)
    exact ⟨(hus.trans hbehind).trans (List.suffix_cons _ _), ho, hl⟩
  | goto _ hl =>
    obtain ⟨hus, hl⟩ := hl.writable hts.tail
    exact ⟨hus.trans (List.suffix_cons _ _), hl⟩
  | ret _ => exact ⟨List.suffix_cons _ _, nofun⟩
  | retValue _ ho =>
    obtain ⟨hus, ho⟩ := ho.writable hts.tail
    refine ⟨hus.trans (List.suffix_cons _ _), ?_⟩
    rintro _ ⟨⟩
    exact ho

/-! ### Segments -/

theorem DatumForm.writable {d : Datum Unit} (h : DatumForm ts us d) (hts : Worded ts) :
    us <:+ ts ∧ d.Writable := by
  cases h with
  | int h => exact h.writable hts
  | label h => exact h.writable hts

theorem RowForm.writable {ds : List (Datum Unit)} (h : RowForm ts us ds) (hts : Worded ts) :
    us <:+ ts ∧ ∀ d ∈ ds, d.Writable := by
  induction h with
  | one h =>
    obtain ⟨hus, hd⟩ := h.writable hts
    exact ⟨hus, List.forall_mem_cons.mpr ⟨hd, List.forall_mem_nil _⟩⟩
  | more h _ ih =>
    obtain ⟨hus, hd⟩ := h.writable hts
    obtain ⟨hrest, hds⟩ := ih (hts.mono hus)
    exact ⟨hrest.trans hus, List.forall_mem_cons.mpr ⟨hd, hds⟩⟩

theorem RowsForm.writable {ds : List (Datum Unit)} (h : RowsForm ts us ds) (hts : Worded ts) :
    us <:+ ts ∧ ∀ d ∈ ds, d.Writable := by
  induction h with
  | nil => exact ⟨List.suffix_refl _, List.forall_mem_nil _⟩
  | blank _ _ ih =>
    obtain ⟨hus, hds⟩ := ih hts.tail
    exact ⟨hus.trans (List.suffix_cons _ _), hds⟩
  | row h heol _ ih =>
    obtain ⟨hus, hds⟩ := h.writable hts
    have hline := (Parser.eol_suffix heol).trans hus
    obtain ⟨hrest, hes⟩ := ih (hts.mono hline)
    exact ⟨hrest.trans hline, List.forall_mem_append.mpr ⟨hds, hes⟩⟩

theorem SegmentForm.writable {s : Segment Unit} (h : SegmentForm ts us s) (hts : Worded ts) :
    us <:+ ts ∧ s.Writable := by
  cases h with
  | intro _ hname heol h =>
    obtain ⟨hus, hds⟩ := h.writable (hts.tail.tail.mono (Parser.eol_suffix heol))
    have hbehind := hus.trans (Parser.eol_suffix heol)
    exact ⟨(hbehind.trans (List.suffix_cons _ _)).trans (List.suffix_cons _ _),
      hts.tail.isName hname, hds⟩

/-! ### Functions -/

theorem ParamsForm.writable {xs : List (Ref Unit)} (h : ParamsForm ts us xs) (hts : Worded ts) :
    us <:+ ts ∧ ∀ x ∈ xs, IsName x.name := by
  induction h with
  | nil => exact ⟨List.suffix_refl _, List.forall_mem_nil _⟩
  | cons hname _ ih =>
    obtain ⟨hus, hxs⟩ := ih hts.tail
    exact ⟨hus.trans (List.suffix_cons _ _), List.forall_mem_cons.mpr ⟨hts.isName hname, hxs⟩⟩

/-- The lines of a function give instructions and labels that can be written, and the labels
from some place on stand for places from there up to the end, in their order. -/
structure Laid (index : Nat) (body : List (Instr Unit)) (labels : List (Label Unit)) : Prop where
  instrs : ∀ i ∈ body, i.Writable
  names : ∀ l ∈ labels, IsName l.name
  within : ∀ l ∈ labels, (index : Int) ≤ l.index ∧ l.index ≤ index + body.length
  ordered : labels.Pairwise fun a b => a.index ≤ b.index

theorem Laid.label {index : Nat} {name : String} {body : List (Instr Unit)}
    {labels : List (Label Unit)} (h : Laid index body labels) (hname : IsName name) :
    Laid index body (⟨name, index, ()⟩ :: labels) where
  instrs := h.instrs
  names := List.forall_mem_cons.mpr ⟨hname, h.names⟩
  within := by
    refine List.forall_mem_cons.mpr ⟨?_, h.within⟩
    show (index : Int) ≤ index ∧ (index : Int) ≤ index + body.length
    omega
  ordered := List.pairwise_cons.mpr ⟨fun l hl => (h.within l hl).1, h.ordered⟩

theorem Laid.instr {index : Nat} {i : Instr Unit} {body : List (Instr Unit)}
    {labels : List (Label Unit)} (h : Laid (index + 1) body labels) (hi : i.Writable) :
    Laid index (i :: body) labels where
  instrs := List.forall_mem_cons.mpr ⟨hi, h.instrs⟩
  names := h.names
  within := by
    intro l hl
    have hplace := h.within l hl
    simp only [List.length_cons]
    omega
  ordered := h.ordered

theorem LinesForm.writable {index : Nat} {body : List (Instr Unit)} {labels : List (Label Unit)}
    (h : LinesForm index ts us body labels) (hts : Worded ts) :
    us <:+ ts ∧ Laid index body labels := by
  induction h with
  | nil =>
    exact ⟨List.suffix_refl _, List.forall_mem_nil _, List.forall_mem_nil _,
      List.forall_mem_nil _, .nil⟩
  | blank _ _ ih =>
    obtain ⟨hus, hlaid⟩ := ih hts.tail
    exact ⟨hus.trans (List.suffix_cons _ _), hlaid⟩
  | label hname _ heol _ ih =>
    obtain ⟨hus, hlaid⟩ := ih (hts.tail.tail.mono (Parser.eol_suffix heol))
    have hbehind := hus.trans (Parser.eol_suffix heol)
    exact ⟨(hbehind.trans (List.suffix_cons _ _)).trans (List.suffix_cons _ _),
      hlaid.label (hts.isName hname)⟩
  | instr h heol _ ih =>
    obtain ⟨hline, hi⟩ := h.writable hts
    have hbehind := (Parser.eol_suffix heol).trans hline
    obtain ⟨hus, hlaid⟩ := ih (hts.mono hbehind)
    exact ⟨hus.trans hbehind, hlaid.instr hi⟩

theorem FunctionForm.writable {f : Function Unit} (h : FunctionForm ts us f) (hts : Worded ts) :
    us <:+ ts ∧ f.Writable := by
  cases h with
  | intro _ hname _ hparams _ heol h hdistinct hlabels =>
    obtain ⟨hclose, hnames⟩ := hparams.writable hts.tail.tail.tail
    have hheader := (Parser.eol_suffix heol).trans ((List.suffix_cons _ _).trans hclose)
    obtain ⟨hus, hlaid⟩ := h.writable (hts.tail.tail.tail.mono hheader)
    refine ⟨?_, hts.tail.isName hname, hnames, hlaid.instrs, hlaid.names, hdistinct, hlabels, ?_,
      hlaid.ordered⟩
    · exact (((hus.trans hheader).trans (List.suffix_cons _ _)).trans (List.suffix_cons _ _)).trans
        (List.suffix_cons _ _)
    · intro l hl
      simpa using hlaid.within l hl

/-! ### Programs -/

theorem ItemsForm.writable {segments : List (Segment Unit)} {functions : List (Function Unit)}
    (h : ItemsForm ts segments functions) (hts : Worded ts) :
    (∀ s ∈ segments, s.Writable) ∧ ∀ f ∈ functions, f.Writable := by
  induction h with
  | nil => exact ⟨List.forall_mem_nil _, List.forall_mem_nil _⟩
  | blank _ _ ih => exact ih hts.tail
  | segment h _ ih =>
    obtain ⟨hus, hs⟩ := h.writable hts
    obtain ⟨hsegments, hfunctions⟩ := ih (hts.mono hus)
    exact ⟨List.forall_mem_cons.mpr ⟨hs, hsegments⟩, hfunctions⟩
  | function h _ ih =>
    obtain ⟨hus, hf⟩ := h.writable hts
    obtain ⟨hsegments, hfunctions⟩ := ih (hts.mono hus)
    exact ⟨hsegments, List.forall_mem_cons.mpr ⟨hf, hfunctions⟩⟩

theorem Derives.writable {p : Program Unit} (h : Derives ts p) (hts : Worded ts) : p.Writable :=
  ⟨(h.items.writable hts).1, (h.items.writable hts).2, h.distinct⟩

end Grammar

/-! ### Texts -/

variable {path source : String} {tokens : List Token} {p : Program Span}

/-- **The tokens of a text derive the program that is read from them.** -/
theorem derives_of_parse (hlex : lex path source = .ok tokens) (hparse : parse tokens = .ok p) :
    ∃ body stop, tokens = body ++ [stop] ∧ stop.kind = .eof ∧ Derives body p.erase := by
  obtain ⟨body, stop, rfl, hstop, hinner⟩ := exists_eof_of_lex hlex
  have hread := readable_of_parse hstop hinner hparse
  have hproper : ∀ t ∈ body, t.Proper := fun t ht => ⟨hinner t ht, hread t ht⟩
  refine ⟨body, stop, rfl, hstop, ?_⟩
  rcases parse_cases hstop hproper with ⟨q, hq, hderives⟩ | ⟨what, span, hfault⟩
  · obtain rfl : q = p := Except.ok.inj (hq.symm.trans hparse)
    exact hderives
  · exact nomatch hfault.symm.trans hparse

/-- **What has been read can be written.** -/
theorem writable_of_parse (hlex : lex path source = .ok tokens) (hparse : parse tokens = .ok p) :
    p.erase.Writable := by
  obtain ⟨body, stop, rfl, -, hderives⟩ := derives_of_parse hlex hparse
  have hworded := (lex_genuine hlex).worded
  exact hderives.writable fun t ht => hworded t (List.mem_append_left _ ht)

end Vapor
