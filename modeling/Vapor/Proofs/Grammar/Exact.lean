/-
Vapor/Proofs/Grammar/Exact.lean

The reader accepts exactly the grammar (`parse_iff_derives`): a program is read from tokens
if and only if they derive it, and tokens that derive no program are refused at one of
them.

What is read is derived (`Parser.meets_program`).  It remains that what is derived is read.
The grammar does not say how far a form reaches where the reader would go on, so this needs
to know what follows: the end of the line behind an instruction, and the next item behind
the lines of a segment or a function.  Empty lines in front of that item, which the grammar
may leave to the program, can always be given to the lines before them.
-/
import Vapor.Proofs.Grammar.Sound

namespace Vapor

open Grammar

/-! ### Empty lines -/

namespace Grammar

variable {ts blank us : List Token}

/-- Empty lines may be counted to the segment before them. -/
theorem RowsForm.absorb {ds : List (Datum Unit)} (h : RowsForm ts (blank ++ us) ds)
    (hblank : ∀ t ∈ blank, t.kind = .newline) : RowsForm ts us ds := by
  generalize hvs : blank ++ us = vs at h
  induction h with
  | nil =>
    subst hvs
    induction blank with
    | nil => exact .nil
    | cons t blank ih =>
      exact .blank (hblank t List.mem_cons_self) (ih (List.forall_mem_cons.mp hblank).2)
  | blank ht _ ih => exact .blank ht (ih hvs)
  | row h heol _ ih => exact .row h heol (ih hvs)

theorem SegmentForm.absorb {s : Segment Unit} (h : SegmentForm ts (blank ++ us) s)
    (hblank : ∀ t ∈ blank, t.kind = .newline) : SegmentForm ts us s := by
  cases h with
  | intro hkeyword hname heol h => exact .intro hkeyword hname heol (h.absorb hblank)

/-- Empty lines may be counted to the function before them. -/
theorem LinesForm.absorb {index : Nat} {body : List (Instr Unit)} {labels : List (Label Unit)}
    (h : LinesForm index ts (blank ++ us) body labels)
    (hblank : ∀ t ∈ blank, t.kind = .newline) : LinesForm index ts us body labels := by
  generalize hvs : blank ++ us = vs at h
  induction h with
  | nil =>
    subst hvs
    induction blank with
    | nil => exact .nil
    | cons t blank ih =>
      exact .blank (hblank t List.mem_cons_self) (ih (List.forall_mem_cons.mp hblank).2)
  | blank ht _ ih => exact .blank ht (ih hvs)
  | label hname hcolon heol _ ih => exact .label hname hcolon heol (ih hvs)
  | instr h heol _ ih => exact .instr h heol (ih hvs)

theorem FunctionForm.absorb {f : Function Unit} (h : FunctionForm ts (blank ++ us) f)
    (hblank : ∀ t ∈ blank, t.kind = .newline) : FunctionForm ts us f := by
  cases h with
  | intro hkeyword hname hopening hparams hclose heol h hdistinct hlabels =>
    exact .intro hkeyword hname hopening hparams hclose heol (h.absorb hblank) hdistinct hlabels

theorem SegmentForm.head {s : Segment Unit} (h : SegmentForm ts us s) :
    ∃ keyword vs, ts = keyword :: vs ∧ (keyword.kind = .const ∨ keyword.kind = .var) := by
  cases h with
  | @intro keyword _ _ _ _ isMutable _ hkeyword =>
    refine ⟨keyword, _, rfl, ?_⟩
    cases isMutable
    · exact .inl hkeyword
    · exact .inr hkeyword

theorem FunctionForm.head {f : Function Unit} (h : FunctionForm ts us f) :
    ∃ keyword vs, ts = keyword :: vs ∧ keyword.kind = .func := by
  cases h with
  | intro hkeyword => exact ⟨_, _, rfl, hkeyword⟩

/-- Behind empty lines there is an item, or nothing. -/
theorem ItemsForm.trim {segments : List (Segment Unit)} {functions : List (Function Unit)}
    (h : ItemsForm ts segments functions) :
    ∃ blank us, ts = blank ++ us ∧ (∀ t ∈ blank, t.kind = .newline) ∧
      ItemsForm us segments functions ∧ Token.AtItem us := by
  induction h with
  | nil => exact ⟨[], [], rfl, nofun, .nil, nofun⟩
  | @blank t _ _ _ ht _ ih =>
    obtain ⟨blank, us, rfl, hblank, hitems, hitem⟩ := ih
    exact ⟨t :: blank, us, rfl, List.forall_mem_cons.mpr ⟨ht, hblank⟩, hitems, hitem⟩
  | @segment ts _ _ _ _ h hrest =>
    refine ⟨[], ts, rfl, nofun, .segment h hrest, ?_⟩
    obtain ⟨keyword, vs, rfl, hkeyword⟩ := h.head
    rintro _ ⟨⟩
    rcases hkeyword with hkeyword | hkeyword <;> rw [hkeyword] <;> rfl
  | @function ts _ _ _ _ h hrest =>
    refine ⟨[], ts, rfl, nofun, .function h hrest, ?_⟩
    obtain ⟨keyword, vs, rfl, hkeyword⟩ := h.head
    rintro _ ⟨⟩
    rw [hkeyword]
    rfl

end Grammar

namespace Parser

open Token (Later)

variable (stop : Token) {ts us vs : List Token}

/-! ### Operands -/

theorem reads_label {l : Ref Unit} (h : LabelForm ts us l) :
    ∃ l', Reads stop label ts us l' ∧ l'.map forget = l := by
  cases h with
  | intro hcolon hname =>
    exact ⟨_, (reads_expect hcolon (by decide) _).bind
      ((reads_expect hname (by decide) _).bind reads_pure), rfl⟩

theorem label_head {l : Ref Unit} (h : LabelForm ts us l) : (ts.headD stop).kind = .colon := by
  cases h with
  | intro hcolon hname => exact hcolon

/-- An operand begins with a token of one of these kinds. -/
theorem operand_head {kind : Token.Kind} {o : Operand Unit} (h : OperandForm ts us o)
    (hhead : (ts.headD stop).kind = kind) : kind ∈ [.ident, .integer, .text, .colon] := by
  rcases h with ht | ⟨⟨ht, -⟩⟩ | ht | ⟨⟨ht, -⟩⟩ <;> simp [← hhead, ht]

theorem reads_operand {o : Operand Unit} (h : OperandForm ts us o) :
    ∃ o', Reads stop operand ts us o' ∧ o'.map forget = o := by
  cases h with
  | @var t _ ht =>
    refine ⟨.var ⟨t.lexeme, t.span⟩, reads_current.bind ?_, rfl⟩
    simp only [List.headD_cons, ht]
    exact (reads_next ht (by decide)).bind reads_pure
  | @int _ _ n h =>
    obtain @⟨t, _, _, ht, hn⟩ := h
    refine ⟨.int n t.span, reads_current.bind ?_, rfl⟩
    simp only [List.headD_cons, ht]
    exact (reads_next ht (by decide)).bind ((reads_integer hn).bind reads_pure)
  | @text t _ ht =>
    refine ⟨.text t.lexeme t.span, reads_current.bind ?_, rfl⟩
    simp only [List.headD_cons, ht]
    exact (reads_next ht (by decide)).bind reads_pure
  | label h =>
    obtain ⟨l, hl, rfl⟩ := reads_label stop h
    refine ⟨.label l, reads_current.bind ?_, rfl⟩
    simp only [label_head stop h]
    exact hl.bind reads_pure

section Operands

variable {stop} (hstop : stop.kind = .eof)

include hstop

theorem reads_operands {rounds : Nat} {os : List (Operand Unit)} {close : Token}
    (h : OperandsForm ts (close :: us) os) (hclose : close.kind = .rparen)
    (hts : ∀ t ∈ ts, t.Proper) (hlen : ts.length < rounds) :
    ∃ r, Reads stop (operands rounds) ts us r ∧ r.1.map (Operand.map forget) = os := by
  induction rounds generalizing ts os with
  | zero => exact absurd hlen (Nat.not_lt_zero _)
  | succ rounds ih =>
    cases h with
    | nil =>
      refine ⟨([], close.span), reads_current.bind ?_, rfl⟩
      simp only [List.headD_cons, hclose]
      exact (reads_next hclose (by decide)).bind reads_pure
    | cons ho hos =>
      obtain ⟨o, hread, rfl⟩ := reads_operand stop ho
      have hlater := ((meets_operand hstop hts).of_reads hread).2
      have hshort := hlater.shorter
      obtain ⟨r, hr, rfl⟩ := ih hos (Later.proper hlater.suffix hts) (by omega)
      refine ⟨(o :: r.1, r.2), reads_current.bind ?_, rfl⟩
      have hhead := operand_head stop ho rfl
      simp only [List.mem_cons, List.not_mem_nil, or_false] at hhead
      rcases hhead with hhead | hhead | hhead | hhead <;> simp only [hhead] <;>
        exact hread.bind (hr.bind reads_pure)

theorem reads_args {os : List (Operand Unit)} (h : ArgsForm ts us os)
    (hts : ∀ t ∈ ts, t.Proper) :
    ∃ r, Reads stop args ts us r ∧ r.1.map (Operand.map forget) = os := by
  cases h with
  | @intro opening close ts _ _ hopening h hclose =>
    have hrest := Later.proper (List.suffix_cons opening ts) hts
    obtain ⟨r, hr, rfl⟩ := reads_operands hstop h hclose hrest
      (show ts.length < ts.length + 2 by omega)
    exact ⟨r, (reads_expect hopening (by decide) _).bind (reads_bound.bind hr), rfl⟩

end Operands

theorem args_head {os : List (Operand Unit)} (h : ArgsForm ts us os) :
    (ts.headD stop).kind = .lparen := by
  cases h with
  | intro hopening => exact hopening

theorem reads_offset {n : Int} {close : Token} (h : OffsetForm ts (close :: us) n)
    (hclose : close.kind = .rbracket) : Reads stop offset ts (close :: us) n := by
  refine reads_current.bind ?_
  cases h with
  | none =>
    rw [List.headD_cons, if_neg (by simp [hclose]), if_neg (by simp [hclose])]
    exact reads_pure
  | plus ht h =>
    cases h with
    | intro hnumber hn =>
      rw [List.headD_cons, if_pos ht]
      exact (reads_next ht (by decide)).bind
        ((reads_expect hnumber (by decide) _).bind (reads_integer hn))
  | minus h hminus =>
    cases h with
    | intro ht hn =>
      rw [List.headD_cons, if_neg (by simp [ht]), if_pos ⟨ht, hminus⟩]
      exact (reads_next ht (by decide)).bind (reads_integer hn)

theorem address_head {a : Address Unit} (h : AddressForm ts us a) :
    (ts.headD stop).kind = .lbracket := by
  cases h with
  | intro hopening => exact hopening

theorem reads_address {a : Address Unit} (h : AddressForm ts us a) :
    ∃ a', Reads stop address ts us a' ∧ a'.map forget = a := by
  cases h with
  | intro hopening hbase h hclose =>
    exact ⟨_, (reads_next hopening (by decide)).bind ((reads_expect hbase (by decide) _).bind
      ((reads_offset stop h hclose).bind ((reads_expect hclose (by decide) _).bind reads_pure))), rfl⟩

/-! ### Instructions -/

section Instructions

variable {stop} (hstop : stop.kind = .eof)

include hstop

theorem eol_head (h : Eol ts us) : (ts.headD stop).kind ∈ [.newline, .eof] := by
  cases h with
  | newline ht => simp [ht]
  | atEnd => simp [hstop]

omit hstop in
/-- A name at the end of a line is not followed by arguments. -/
theorem operand_alone {o : Operand Unit} (h : OperandForm ts us o)
    (hend : (us.headD stop).kind ∈ [.newline, .eof]) (hhead : (ts.headD stop).kind = .ident) :
    (ts.tail.headD stop).kind ≠ .lparen := by
  rcases h with - | ⟨⟨ht, -⟩⟩ | ht | ⟨⟨ht, -⟩⟩
  · intro h
    rw [List.tail_cons] at h
    rw [h] at hend
    exact absurd hend (by decide)
  all_goals exact absurd (ht.symm.trans hhead) (by decide)

omit hstop in
theorem eol_suffix (h : Eol ts us) : us <:+ ts := by
  cases h with
  | newline => exact List.suffix_cons _ _
  | atEnd => exact List.suffix_refl _

theorem reads_call {keyword : Token} {c : Callee Unit} {os : List (Operand Unit)}
    (dest : Option (Ref Span)) (start : Span) (hkeyword : keyword.kind = .call)
    (hc : CalleeForm ts us c) (hos : ArgsForm us vs os) (hts : ∀ t ∈ ts, t.Proper) :
    ∃ i, Reads stop (call dest start) (keyword :: ts) vs i ∧
      i.map forget = .call (dest.map (Ref.map forget)) c os () := by
  cases hc with
  | @var name _ hname =>
    obtain ⟨r, hr, rfl⟩ := reads_args hstop hos (Later.proper (List.suffix_cons _ _) hts)
    refine ⟨.call dest (.var ⟨name.lexeme, name.span⟩) r.1 (start.join r.2),
      (reads_next hkeyword (by decide)).bind (reads_current.bind ?_), rfl⟩
    rw [List.headD_cons, if_neg (by simp [hname])]
    exact (reads_expect hname (by decide) _).bind (reads_pure.bind (hr.bind reads_pure))
  | label hl =>
    obtain ⟨l, hread, rfl⟩ := reads_label stop hl
    have hlater := ((meets_label hstop).of_reads hread).2
    obtain ⟨r, hr, rfl⟩ := reads_args hstop hos (Later.proper hlater.suffix hts)
    refine ⟨.call dest (.label l) r.1 (start.join r.2),
      (reads_next hkeyword (by decide)).bind (reads_current.bind ?_), rfl⟩
    rw [if_pos (label_head stop hl)]
    exact hread.bind (reads_pure.bind (hr.bind reads_pure))

theorem reads_application {op : Token} {os : List (Operand Unit)} (dest : Option (Ref Span))
    (start : Span) (hop : op.kind = .ident) (hos : ArgsForm ts us os)
    (hts : ∀ t ∈ ts, t.Proper) :
    ∃ i, Reads stop (application dest start) (op :: ts) us i ∧
      i.map forget = .apply (dest.map (Ref.map forget)) op.lexeme os () := by
  obtain ⟨r, hr, rfl⟩ := reads_args hstop hos hts
  exact ⟨_, (reads_next hop (by decide)).bind (hr.bind reads_pure), rfl⟩

omit hstop in
/-- A name and an equality sign begin an assignment. -/
theorem reads_dest {x eq : Token} {i : Instr Span} (hx : x.kind = .ident)
    (heq : eq.kind = .assign) (h : Reads stop (assignment ⟨x.lexeme, x.span⟩) ts us i) :
    Reads stop instr (x :: eq :: ts) us i := by
  refine reads_get fun behind => ?_
  simp only [Cursor.current_on, Cursor.peek_on, List.headD_cons, List.tail_cons, hx, heq]
  exact (reads_next hx (by decide)).bind ((reads_next heq (by decide)).bind h)

/-- **An instruction at the end of a line is read.** -/
theorem reads_instr {i : Instr Unit} (h : InstrForm ts us i) (heol : Eol us vs)
    (hts : ∀ t ∈ ts, t.Proper) :
    ∃ i', Reads stop instr ts us i' ∧ i'.map forget = i := by
  have hend := eol_head hstop heol
  cases h with
  | assign hx ho =>
    obtain ⟨o, hread, rfl⟩ := reads_operand stop ho
    cases hx with
    | @some x eq _ hx heq =>
      refine ⟨.assign ⟨x.lexeme, x.span⟩ o (x.span.join o.note),
        reads_dest hx heq (reads_get fun behind => ?_), rfl⟩
      rw [Cursor.current_on, Cursor.peek_on]
      -- an operand is no address and no call, and a name with the line's end behind it is
      -- not applied to anything
      split
      · exact absurd (operand_head stop ho ‹_›) (by decide)
      · exact absurd (operand_head stop ho ‹_›) (by decide)
      · exact absurd ‹_› (operand_alone ho hend ‹_›)
      · exact hread.bind reads_pure
  | load hx ha =>
    obtain ⟨a, hread, rfl⟩ := reads_address stop ha
    cases hx with
    | @some x eq _ hx heq =>
      refine ⟨.load ⟨x.lexeme, x.span⟩ a (x.span.join a.note),
        reads_dest hx heq (reads_get fun behind => ?_), rfl⟩
      simp only [Cursor.current_on, Cursor.peek_on, address_head stop ha]
      exact hread.bind reads_pure
  | store ha heq ho =>
    obtain ⟨a, hread, rfl⟩ := reads_address stop ha
    obtain ⟨o, hread', rfl⟩ := reads_operand stop ho
    refine ⟨.store a o (a.note.join o.note), reads_get fun behind => ?_, rfl⟩
    simp only [Cursor.current_on, Cursor.peek_on, address_head stop ha]
    exact hread.bind ((reads_expect heq (by decide) _).bind (hread'.bind reads_pure))
  | call hdest hkeyword hc hos =>
    cases hdest with
    | none =>
      obtain ⟨i, hi, hmap⟩ := reads_call hstop none _ hkeyword hc hos
        fun t ht => hts t (by simp [ht])
      refine ⟨i, reads_get fun behind => ?_, hmap⟩
      simp only [Cursor.current_on, Cursor.peek_on, List.headD_cons, hkeyword]
      exact hi
    | @some x eq _ hx heq =>
      obtain ⟨i, hi, hmap⟩ := reads_call hstop (some ⟨x.lexeme, x.span⟩) x.span hkeyword hc hos
        fun t ht => hts t (by simp [ht])
      refine ⟨i, reads_dest hx heq (reads_get fun behind => ?_), hmap⟩
      simp only [Cursor.current_on, Cursor.peek_on, List.headD_cons, hkeyword]
      exact hi
  | apply hdest hop hos =>
    cases hdest with
    | none =>
      obtain ⟨i, hi, hmap⟩ := reads_application hstop none _ hop hos
        fun t ht => hts t (by simp [ht])
      refine ⟨i, reads_get fun behind => ?_, hmap⟩
      simp only [Cursor.current_on, Cursor.peek_on, List.headD_cons, List.tail_cons, hop,
        args_head stop hos]
      exact hi
    | @some x eq _ hx heq =>
      obtain ⟨i, hi, hmap⟩ := reads_application hstop (some ⟨x.lexeme, x.span⟩) x.span hop hos
        fun t ht => hts t (by simp [ht])
      refine ⟨i, reads_dest hx heq (reads_get fun behind => ?_), hmap⟩
      simp only [Cursor.current_on, Cursor.peek_on, List.headD_cons, List.tail_cons, hop,
        args_head stop hos]
      exact hi
  | @branch keyword _ _ _ _ _ positive l hkeyword ho hgoto hl =>
    obtain ⟨o, hread, rfl⟩ := reads_operand stop ho
    obtain ⟨l, hread', rfl⟩ := reads_label stop hl
    refine ⟨.branch o positive l (keyword.span.join l.note), reads_get fun behind => ?_, rfl⟩
    simp only [Cursor.current_on, Cursor.peek_on, List.headD_cons, hkeyword]
    have hi : Reads stop (branch positive) _ _ _ :=
      (reads_next hkeyword (by cases positive <;> decide)).bind (hread.bind
        ((reads_expect hgoto (by decide) _).bind (hread'.bind reads_pure)))
    cases positive <;> exact hi
  | @goto keyword _ _ l hkeyword hl =>
    obtain ⟨l, hread, rfl⟩ := reads_label stop hl
    refine ⟨.goto l (keyword.span.join l.note), reads_get fun behind => ?_, rfl⟩
    simp only [Cursor.current_on, Cursor.peek_on, List.headD_cons, hkeyword]
    exact (reads_next hkeyword (by decide)).bind (hread.bind reads_pure)
  | @ret keyword _ hkeyword =>
    refine ⟨.ret none keyword.span, reads_get fun behind => ?_, rfl⟩
    simp only [Cursor.current_on, Cursor.peek_on, List.headD_cons, hkeyword]
    refine (reads_next hkeyword (by decide)).bind (reads_get fun behind => ?_)
    rw [if_pos (by simpa [Cursor.isAny] using hend)]
    exact reads_pure
  | @retValue keyword _ _ o hkeyword ho =>
    obtain ⟨o, hread, rfl⟩ := reads_operand stop ho
    refine ⟨.ret (some o) (keyword.span.join o.note), reads_get fun behind => ?_, rfl⟩
    simp only [Cursor.current_on, Cursor.peek_on, List.headD_cons, hkeyword]
    refine (reads_next hkeyword (by decide)).bind (reads_get fun behind => ?_)
    have hdisjoint : ∀ kind ∈ [.ident, .integer, .text, .colon],
        ¬[Token.Kind.newline, .eof].contains kind = true := by decide
    rw [Cursor.isAny, Cursor.current_on, if_neg (hdisjoint _ (operand_head stop ho rfl))]
    exact hread.bind reads_pure

end Instructions

/-! ### Segments -/

theorem datum_head {kind : Token.Kind} {d : Datum Unit} (h : DatumForm ts us d)
    (hhead : (ts.headD stop).kind = kind) : kind ∈ [.integer, .colon] := by
  rcases h with ⟨⟨ht, -⟩⟩ | ⟨⟨ht, -⟩⟩ <;> simp [← hhead, ht]

theorem datum_shorter {d : Datum Unit} (h : DatumForm ts us d) : us.length < ts.length := by
  rcases h with ⟨⟨-, -⟩⟩ | ⟨⟨-, -⟩⟩ <;> simp only [List.length_cons] <;> omega

theorem row_head {kind : Token.Kind} {ds : List (Datum Unit)} (h : RowForm ts us ds)
    (hhead : (ts.headD stop).kind = kind) : kind ∈ [.integer, .colon] := by
  cases h with
  | one h => exact datum_head stop h hhead
  | more h => exact datum_head stop h hhead

theorem reads_datum {d : Datum Unit} (h : DatumForm ts us d) :
    ∃ d', Reads stop datum ts us d' ∧ d'.map forget = d := by
  cases h with
  | @int n h =>
    obtain @⟨t, _, _, ht, hn⟩ := h
    refine ⟨.int n t.span, reads_current.bind ?_, rfl⟩
    simp only [List.headD_cons, ht]
    exact (reads_next ht (by decide)).bind ((reads_integer hn).bind reads_pure)
  | label h =>
    obtain ⟨l, hl, rfl⟩ := reads_label stop h
    refine ⟨.label l, reads_current.bind ?_, rfl⟩
    simp only [label_head stop h]
    exact hl.bind reads_pure

section Segments

variable {stop} (hstop : stop.kind = .eof)

include hstop

omit hstop in
/-- The word at hand is not the end of the segment, nor of a line. -/
theorem reads_data_word {rounds : Nat} {last : Span} {d : Datum Unit}
    {r : List (Datum Span) × Span} (h : DatumForm ts us d) (hread : Reads stop (do
        let value ← datum
        let last ← do
          if (← get).isAny [.ident, .colon, .integer] then pure last
          else pure (← endOfLine .noDatumLineEnd).span
        let (values, last) ← data last rounds
        return (value :: values, last)) ts vs r) :
    Reads stop (data last (rounds + 1)) ts vs r := by
  refine reads_get fun behind => ?_
  have hword : ∀ kind ∈ [.integer, .colon],
      ¬(kind == .eof || kind.opensItem) = true ∧ kind ≠ Token.Kind.newline := by decide
  obtain ⟨hitem, hline⟩ := hword _ (datum_head stop h rfl)
  rw [if_neg (Cursor.not_atItem_on rfl hitem), Cursor.current_on, if_neg hline]
  exact hread

/-- The words of a line are read one by one. -/
theorem reads_row {ds es : List (Datum Unit)} {ws : List Token} (h : RowForm ts us ds)
    (heol : Eol us vs) (hrest : ∀ last rounds, vs.length < rounds →
      ∃ r, Reads stop (data last rounds) vs ws r ∧ r.1.map (Datum.map forget) = es)
    (last : Span) (rounds : Nat) (hlen : ts.length < rounds) :
    ∃ r, Reads stop (data last rounds) ts ws r ∧ r.1.map (Datum.map forget) = ds ++ es := by
  induction h generalizing rounds with
  | one h =>
    -- the last word, with the end of the line behind it
    obtain ⟨d, hd, rfl⟩ := reads_datum stop h
    obtain ⟨t, ht⟩ := reads_endOfLine hstop heol .noDatumLineEnd
    have hshort := datum_shorter h
    have hlength := (eol_suffix heol).length_le
    cases rounds with
    | zero => exact absurd hlen (Nat.not_lt_zero _)
    | succ rounds =>
      obtain ⟨r, hr, hmap⟩ := hrest t.span rounds (by omega)
      refine ⟨(d :: r.1, r.2), reads_data_word h (hd.bind (reads_get fun behind => ?_)),
        congrArg (Datum.map forget d :: ·) hmap⟩
      have hlast : ∀ kind ∈ [.newline, .eof],
          ¬[Token.Kind.ident, .colon, .integer].contains kind = true := by decide
      rw [Cursor.isAny, Cursor.current_on, if_neg (hlast _ (eol_head hstop heol))]
      exact ht.bind (reads_pure.bind (hr.bind reads_pure))
  | more h hrow ih =>
    obtain ⟨d, hd, rfl⟩ := reads_datum stop h
    have hshort := datum_shorter h
    cases rounds with
    | zero => exact absurd hlen (Nat.not_lt_zero _)
    | succ rounds =>
      obtain ⟨r, hr, hmap⟩ := ih heol rounds (by omega)
      refine ⟨(d :: r.1, r.2), reads_data_word h (hd.bind (reads_get fun behind => ?_)),
        congrArg (Datum.map forget d :: ·) hmap⟩
      have hnext : ∀ kind ∈ [.integer, .colon],
          [Token.Kind.ident, .colon, .integer].contains kind = true := by decide
      rw [Cursor.isAny, Cursor.current_on, if_pos (hnext _ (row_head stop hrow rfl))]
      exact reads_pure.bind (hr.bind reads_pure)

theorem reads_data {ds : List (Datum Unit)} (h : RowsForm ts us ds) (hitem : Token.AtItem us)
    (last : Span) (rounds : Nat) (hlen : ts.length < rounds) :
    ∃ r, Reads stop (data last rounds) ts us r ∧ r.1.map (Datum.map forget) = ds := by
  induction h generalizing last rounds with
  | nil =>
    cases rounds with
    | zero => exact absurd hlen (Nat.not_lt_zero _)
    | succ rounds =>
      refine ⟨([], last), reads_get fun behind => ?_, rfl⟩
      rw [if_pos (Cursor.atItem_on hstop hitem)]
      exact reads_pure
  | blank ht hrest ih =>
    cases rounds with
    | zero => exact absurd hlen (Nat.not_lt_zero _)
    | succ rounds =>
      obtain ⟨r, hr, hmap⟩ := ih hitem last rounds (Nat.lt_of_succ_lt_succ hlen)
      refine ⟨r, reads_get fun behind => ?_, hmap⟩
      rw [if_neg (by exact Cursor.not_atItem_on ht (by decide)),
        Cursor.current_on, List.headD_cons, if_pos ht]
      exact (reads_next ht (by decide)).bind hr
  | row h heol hrest ih => exact reads_row hstop h heol (ih hitem) last rounds hlen

theorem reads_segment {keyword : Token} {s : Segment Unit} (h : SegmentForm (keyword :: ts) us s)
    (hitem : Token.AtItem us) : ∃ s', Reads stop (segment keyword) ts us s' ∧ s'.map forget = s := by
  obtain @⟨_, name, ts, vs, _, isMutable, _, hkeyword, hname, heol, h⟩ := h
  obtain ⟨header, hheader⟩ := reads_endOfLine hstop heol .noSegmentLineEnd
  obtain ⟨r, hr, rfl⟩ := reads_data hstop h hitem header.span (vs.length + 2) (by omega)
  refine ⟨_, (reads_expect hname (by decide) _).bind (hheader.bind
    (reads_bound.bind (hr.bind reads_pure))), ?_⟩
  have hmutable : (keyword.kind == .var) = isMutable := by
    rw [hkeyword]
    cases isMutable <;> rfl
  rw [hmutable]
  rfl

end Segments

/-! ### Functions -/

/-- An instruction begins with a token of one of these kinds. -/
theorem instr_head {kind : Token.Kind} {i : Instr Unit} (h : InstrForm ts us i)
    (hhead : (ts.headD stop).kind = kind) :
    kind ∈ [.ident, .lbracket, .call, .ifTrue, .ifZero, .goto, .ret] := by
  cases h with
  | assign hx => cases hx with | some hx => simp [← hhead, hx]
  | load hx => cases hx with | some hx => simp [← hhead, hx]
  | store ha => simp [← hhead.symm.trans (address_head stop ha)]
  | call hdest hkeyword =>
    cases hdest with
    | none => simp [← hhead, hkeyword]
    | some hx => simp [← hhead, hx]
  | apply hdest hop =>
    cases hdest with
    | none => simp [← hhead, hop]
    | some hx => simp [← hhead, hx]
  | @branch _ _ _ _ _ _ positive _ hkeyword => cases positive <;> simp [← hhead, hkeyword]
  | goto hkeyword => simp [← hhead, hkeyword]
  | ret hkeyword => simp [← hhead, hkeyword]
  | retValue hkeyword => simp [← hhead, hkeyword]

/-- An instruction does not begin as a label does. -/
theorem instr_not_label {i : Instr Unit} (h : InstrForm ts us i)
    (hhead : (ts.headD stop).kind = .ident) : (ts.tail.headD stop).kind ≠ .colon := by
  cases h with
  | assign hx => cases hx with | some _ heq => simp [heq]
  | load hx => cases hx with | some _ heq => simp [heq]
  | store ha => exact absurd ((address_head stop ha).symm.trans hhead) (by decide)
  | call hdest hkeyword =>
    cases hdest with
    | none => exact absurd (hkeyword.symm.trans hhead) (by decide)
    | some _ heq => simp [heq]
  | apply hdest hop hargs =>
    cases hdest with
    | none => exact fun h => absurd ((args_head stop hargs).symm.trans h) (by decide)
    | some _ heq => simp [heq]
  | @branch _ _ _ _ _ _ positive _ hkeyword =>
    cases positive <;> exact absurd (hkeyword.symm.trans hhead) (by decide)
  | goto hkeyword => exact absurd (hkeyword.symm.trans hhead) (by decide)
  | ret hkeyword => exact absurd (hkeyword.symm.trans hhead) (by decide)
  | retValue hkeyword => exact absurd (hkeyword.symm.trans hhead) (by decide)

/-- Names that are new are so with one of them seen, if it does not occur again. -/
theorem new_of_nodup {α : Type} {f : α → String} {x : α} {xs : List α} {seen : List String}
    (hnodup : ((x :: xs).map f).Nodup) (hnew : ∀ y ∈ x :: xs, f y ∉ seen) :
    ∀ y ∈ xs, f y ∉ f x :: seen := by
  intro y hy hmem
  rcases List.mem_cons.mp hmem with heq | hmem
  · exact (List.nodup_cons.mp hnodup).1 (heq ▸ List.mem_map_of_mem hy)
  · exact hnew y (List.mem_cons_of_mem _ hy) hmem

theorem reads_params {rounds : Nat} {xs : List (Ref Unit)} {close : Token} {seen : List String}
    (h : ParamsForm ts (close :: us) xs) (hclose : close.kind = .rparen)
    (hnodup : (xs.map Ref.name).Nodup) (hnew : ∀ x ∈ xs, x.name ∉ seen)
    (hlen : ts.length < rounds) :
    ∃ r, Reads stop (params seen rounds) ts us r ∧ r.1.map (Ref.map forget) = xs := by
  induction rounds generalizing ts xs seen with
  | zero => exact absurd hlen (Nat.not_lt_zero _)
  | succ rounds ih =>
    cases h with
    | nil =>
      refine ⟨([], close.span), reads_current.bind ?_, rfl⟩
      rw [List.headD_cons, if_pos hclose]
      exact (reads_next hclose (by decide)).bind reads_pure
    | @cons name ts _ xs hname hrest =>
      obtain ⟨r, hr, rfl⟩ := ih hrest hnodup.of_cons (new_of_nodup hnodup hnew)
        (Nat.lt_of_succ_lt_succ hlen)
      refine ⟨(⟨name.lexeme, name.span⟩ :: r.1, r.2), reads_current.bind ?_, rfl⟩
      rw [List.headD_cons, if_neg (by simp [hname])]
      refine (reads_expect hname (by decide) _).bind ?_
      rw [if_neg (hnew _ List.mem_cons_self)]
      exact hr.bind reads_pure

section Functions

variable {stop} (hstop : stop.kind = .eof)

include hstop

theorem reads_block {index : Nat} {body : List (Instr Unit)} {labels : List (Label Unit)}
    {seen : List String} (h : LinesForm index ts us body labels) (hitem : Token.AtItem us)
    (hnodup : (labels.map Label.name).Nodup) (hnew : ∀ l ∈ labels, l.name ∉ seen)
    (hts : ∀ t ∈ ts, t.Proper) (last : Span) (rounds : Nat) (hlen : ts.length < rounds) :
    ∃ b, Reads stop (block index seen last rounds) ts us b ∧
      b.body.map (Instr.map forget) = body ∧ b.labels.map (Label.map forget) = labels := by
  induction rounds generalizing index ts body labels seen last with
  | zero => exact absurd hlen (Nat.not_lt_zero _)
  | succ rounds ih =>
    cases h with
    | nil =>
      refine ⟨⟨[], [], last⟩, reads_get fun behind => ?_, rfl, rfl⟩
      rw [if_pos (Cursor.atItem_on hstop hitem)]
      exact reads_pure
    | blank ht hrest =>
      have hproper := Later.proper (List.suffix_cons _ _) hts
      obtain ⟨b, hb, hbody, hlabels⟩ :=
        ih hrest hnodup hnew hproper last (Nat.lt_of_succ_lt_succ hlen)
      refine ⟨b, reads_get fun behind => ?_, hbody, hlabels⟩
      rw [if_neg (by exact Cursor.not_atItem_on ht (by decide)),
        Cursor.current_on, List.headD_cons, if_pos ht]
      exact (reads_next ht (by decide)).bind hb
    | @label _ name colon ts vs _ _ labels hname hcolon heol hrest =>
      have hsuffix := eol_suffix heol
      have hlength := hsuffix.length_le
      have hproper := Later.proper
        ((hsuffix.trans (List.suffix_cons colon ts)).trans (List.suffix_cons name _)) hts
      obtain ⟨b, hb, rfl, rfl⟩ := ih hrest hnodup.of_cons (new_of_nodup hnodup hnew) hproper
        name.span (by simp only [List.length_cons] at hlen; omega)
      obtain ⟨e, he⟩ := reads_endOfLine hstop heol .noLabelLineEnd
      refine ⟨{ b with labels := ⟨name.lexeme, index, name.span⟩ :: b.labels },
        reads_get fun behind => ?_, rfl, rfl⟩
      rw [if_neg (by exact Cursor.not_atItem_on hname (by decide)),
        Cursor.current_on, Cursor.peek_on, List.headD_cons, if_neg (by simp [hname]),
        if_pos ⟨hname, hcolon⟩]
      refine (reads_next hname (by decide)).bind ((reads_next hcolon (by decide)).bind ?_)
      rw [if_neg (hnew _ List.mem_cons_self)]
      exact he.bind (hb.bind reads_pure)
    | instr hi heol hrest =>
      obtain ⟨i, hread, rfl⟩ := reads_instr hstop hi heol hts
      -- that a token has been read is known from soundness
      have hlater := ((meets_instr hstop hts).of_reads hread).2.trans (eol_suffix heol)
      have hshort := hlater.shorter
      obtain ⟨b, hb, rfl, rfl⟩ := ih hrest hnodup hnew (Later.proper hlater.suffix hts) i.note
        (by omega)
      obtain ⟨e, he⟩ := reads_endOfLine hstop heol .noInstrLineEnd
      refine ⟨{ b with body := i :: b.body }, reads_get fun behind => ?_, rfl, rfl⟩
      have hinside : ∀ kind ∈ [.ident, .lbracket, .call, .ifTrue, .ifZero, .goto, .ret],
          ¬(kind == .eof || kind.opensItem) = true ∧ kind ≠ Token.Kind.newline := by decide
      obtain ⟨hno, hline⟩ := hinside _ (instr_head stop hi rfl)
      rw [if_neg (Cursor.not_atItem_on rfl hno), Cursor.current_on, Cursor.peek_on,
        if_neg hline, if_neg fun h => instr_not_label stop hi h.1 h.2]
      exact hread.bind (he.bind (hb.bind reads_pure))

theorem reads_function {keyword : Token} {f : Function Unit}
    (h : FunctionForm (keyword :: ts) us f) (hitem : Token.AtItem us)
    (hts : ∀ t ∈ ts, t.Proper) :
    ∃ f', Reads stop (function keyword) ts us f' ∧ f'.map forget = f := by
  obtain @⟨_, name, opening, close, ts, vs, ws, _, _, _, _, -, hname, hopening, hparams, hclose,
    heol, hlines, hdistinct, hlabels⟩ := h
  have hparamsProper := Later.proper
    ((List.suffix_cons opening ts).trans (List.suffix_cons name _)) hts
  have hbound (ts : List Token) : ts.length < ts.length + 2 := by omega
  obtain ⟨r, hr, rfl⟩ := reads_params stop hparams hclose hdistinct
    (fun _ _ => List.not_mem_nil) (hbound ts)
  have hsuffix := ((meets_params hstop [] hparamsProper (hbound ts)).of_reads hr).2
  have hproper := Later.proper ((eol_suffix heol).trans hsuffix) hparamsProper
  obtain ⟨b, hb, rfl, rfl⟩ := reads_block hstop hlines hitem hlabels
    (fun _ _ => List.not_mem_nil) hproper r.2 (ws.length + 2) (hbound ws)
  obtain ⟨e, he⟩ := reads_endOfLine hstop heol .noHeaderLineEnd
  exact ⟨_, (reads_expect hname (by decide) _).bind ((reads_expect hopening (by decide) _).bind
    (reads_bound.bind (hr.bind (he.bind (reads_bound.bind (hb.bind reads_pure)))))), rfl⟩

end Functions

/-! ### Programs -/

section Programs

variable {stop} (hstop : stop.kind = .eof)

include hstop

theorem reads_items {rounds : Nat} {segments : List (Segment Unit)}
    {functions : List (Function Unit)} (h : ItemsForm ts segments functions)
    (hts : ∀ t ∈ ts, t.Proper) (hlen : ts.length < rounds) :
    ∃ r, Reads stop (items rounds) ts [] r ∧ r.1.map (Segment.map forget) = segments ∧
      r.2.map (Function.map forget) = functions := by
  induction rounds generalizing ts segments functions with
  | zero => exact absurd hlen (Nat.not_lt_zero _)
  | succ rounds ih =>
    cases h with
    | nil =>
      refine ⟨([], []), reads_current.bind ?_, rfl, rfl⟩
      simp only [List.headD_nil, hstop]
      exact reads_pure
    | blank ht hrest =>
      obtain ⟨r, hr, hmap⟩ := ih hrest (Later.proper (List.suffix_cons _ _) hts)
        (Nat.lt_of_succ_lt_succ hlen)
      refine ⟨r, reads_current.bind ?_, hmap⟩
      simp only [List.headD_cons, ht]
      exact (reads_next ht (by decide)).bind hr
    | segment h hrest =>
      -- the reader takes the empty lines before the next item for lines of the segment
      obtain ⟨blank, vs, rfl, hblank, hrest, hitem⟩ := hrest.trim
      replace h := h.absorb hblank
      obtain ⟨keyword, ws, rfl, hkeyword⟩ := h.head
      have hproper := Later.proper (List.suffix_cons _ _) hts
      obtain ⟨s, hs, rfl⟩ := reads_segment hstop h hitem
      have hsuffix := ((meets_segment hstop hproper hkeyword).of_reads hs).2
      have hlength := hsuffix.length_le
      obtain ⟨r, hr, rfl, rfl⟩ := ih hrest (Later.proper hsuffix hproper)
        (by simp only [List.length_cons] at hlen; omega)
      refine ⟨(s :: r.1, r.2), reads_current.bind ?_, rfl, rfl⟩
      rcases hkeyword with hkeyword | hkeyword <;> simp only [List.headD_cons, hkeyword] <;>
        exact (reads_next hkeyword (by decide)).bind (hs.bind (hr.bind reads_pure))
    | function h hrest =>
      obtain ⟨blank, vs, rfl, hblank, hrest, hitem⟩ := hrest.trim
      replace h := h.absorb hblank
      obtain ⟨keyword, ws, rfl, hkeyword⟩ := h.head
      have hproper := Later.proper (List.suffix_cons _ _) hts
      obtain ⟨f, hf, rfl⟩ := reads_function hstop h hitem hproper
      have hsuffix := ((meets_function hstop hproper hkeyword).of_reads hf).2
      have hlength := hsuffix.length_le
      obtain ⟨r, hr, rfl, rfl⟩ := ih hrest (Later.proper hsuffix hproper)
        (by simp only [List.length_cons] at hlen; omega)
      refine ⟨(r.1, f :: r.2), reads_current.bind ?_, rfl, rfl⟩
      simp only [List.headD_cons, hkeyword]
      exact (reads_next hkeyword (by decide)).bind (hf.bind (hr.bind reads_pure))

/-- **What the tokens derive is read.** -/
theorem reads_program {p : Program Unit} (h : Derives ts p) (hts : ∀ t ∈ ts, t.Proper) :
    ∃ p', Reads stop program ts [] p' ∧ p'.erase = p := by
  obtain ⟨segments, functions, _⟩ := p
  obtain ⟨hitems, hdistinct⟩ := h
  obtain ⟨⟨ss, fs⟩, hr, rfl, rfl⟩ := reads_items hstop hitems hts
    (show ts.length < ts.length + 2 by omega)
  have hnone : duplicate? [] (ss.map (fun s => (s.name, s.note)) ++
      fs.map (fun f => (f.name, f.note))) = none := by
    refine duplicate?_eq_none.mpr ⟨?_, fun _ _ => List.not_mem_nil⟩
    simpa [Segment.map, Function.map, Function.comp_def] using hdistinct
  refine ⟨⟨ss, fs, (ts.headD stop).span.join stop.span⟩,
    reads_current.bind (reads_bound.bind (hr.bind ?_)), rfl⟩
  simp only [hnone]
  exact reads_current.bind reads_pure

end Programs

end Parser

/-! ### The reader and the grammar -/

section Parse

variable {ts : List Token} {stop : Token}

/-- There is a program, which the tokens derive, or a fault at one of them. -/
theorem parse_cases (hstop : stop.kind = .eof) (hts : ∀ t ∈ ts, t.Proper) :
    (∃ p, parse (ts ++ [stop]) = .ok p ∧ Derives ts p.erase) ∨
      ∃ what span, parse (ts ++ [stop]) = .error (.fault what span) := by
  rw [parse_append]
  rcases Parser.meets_program hstop hts [] with ⟨behind, us, p, hrun, hp⟩ | ⟨what, span, hrun⟩
  · rw [hrun]
    exact .inl ⟨p, rfl, hp⟩
  · rw [hrun]
    exact .inr ⟨what, span, rfl⟩

theorem parse_of_derives (hstop : stop.kind = .eof) (hts : ∀ t ∈ ts, t.Proper)
    {p : Program Unit} (h : Derives ts p) :
    ∃ p', parse (ts ++ [stop]) = .ok p' ∧ p'.erase = p := by
  obtain ⟨p', hread, hp'⟩ := Parser.reads_program hstop h hts
  obtain ⟨behind, hrun⟩ := hread []
  rw [parse_append, hrun]
  exact ⟨p', rfl, hp'⟩

/-- **The reader accepts exactly its grammar.**  Of tokens that come to an end, and whose
integers can be read, it makes a program if and only if they derive the program; tokens
that derive none it refuses at one of them. -/
theorem parse_iff_derives (hstop : stop.kind = .eof) (hts : ∀ t ∈ ts, t.Proper) :
    (∀ p : Program Unit, (∃ p', parse (ts ++ [stop]) = .ok p' ∧ p'.erase = p) ↔ Derives ts p) ∧
      ((¬∃ p, Derives ts p) → ∃ what span, parse (ts ++ [stop]) = .error (.fault what span)) := by
  refine ⟨fun p => ⟨?_, parse_of_derives hstop hts⟩, fun hnone => ?_⟩
  · rintro ⟨p', hp', rfl⟩
    rcases parse_cases hstop hts with ⟨q, hq, hderives⟩ | ⟨what, span, hfault⟩
    · obtain rfl : q = p' := Except.ok.inj (hq.symm.trans hp')
      exact hderives
    · exact nomatch hfault.symm.trans hp'
  · rcases parse_cases hstop hts with ⟨q, -, hderives⟩ | hfault
    · exact absurd ⟨_, hderives⟩ hnone
    · exact hfault

end Parse

namespace Sample

/-- A segment with two words on a line, and a function that loads one of them.  The text
ends without the end of a line. -/
def lookupTokens : List Token :=
  [token .const "const", ident "Table", newline, token .colon ":", ident "Get",
    token .integer "-3", newline, newline] ++
  [token .func "func", ident "Get", token .lparen "(", ident "t", token .rparen ")", newline] ++
  [ident "x", token .assign "=", token .lbracket "[", ident "t", token .integer "-4",
    token .rbracket "]", newline] ++
  [token .ret "ret", ident "x"]

/-- What these tokens derive. -/
def lookup : Program Unit where
  segments := [⟨"Table", false, [.label ⟨"Get", ()⟩, .int (-3) ()], ()⟩]
  functions :=
    [⟨"Get", [⟨"t", ()⟩], [.load ⟨"x", ()⟩ ⟨⟨"t", ()⟩, -4, ()⟩ (), .ret (some (.var ⟨"x", ()⟩)) ()],
      [], ()⟩]
  note := ()

theorem proper_lookupTokens : ∀ t ∈ lookupTokens, t.Proper := by
  decide

end Sample

/-- The tokens of the sample derive its program, and none once a colon stands behind them. -/
theorem parse_iff_derives_sample :
    (Sample.token .eof "").kind = .eof ∧ (∀ t ∈ Sample.lookupTokens, t.Proper) ∧
      Derives Sample.lookupTokens Sample.lookup ∧
      ¬∃ p, Derives (Sample.lookupTokens ++ [Sample.token .colon ":"]) p := by
  have hstop : (Sample.token .eof "").kind = .eof := rfl
  refine ⟨hstop, Sample.proper_lookupTokens, ?_, ?_⟩
  · exact ((parse_iff_derives hstop Sample.proper_lookupTokens).1 Sample.lookup).mp ⟨_, rfl, rfl⟩
  · rintro ⟨p, hp⟩
    have hproper : ∀ t ∈ Sample.lookupTokens ++ [Sample.token .colon ":"], t.Proper := by decide
    obtain ⟨p', hp', -⟩ := ((parse_iff_derives hstop hproper).1 p).mpr hp
    cases hp'

end Vapor
