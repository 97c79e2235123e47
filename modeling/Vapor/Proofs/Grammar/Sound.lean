/-
Vapor/Proofs/Grammar/Sound.lean

What is read has the form that the grammar demands, and what cannot be read is refused at
a token (`meets_program`).  The loops never run into their bounds, since each round reads
a token.

A reader is gone through in the order in which it reads.  Where it looks at the next token
to decide, all kinds of token have to be considered; those for which there is no form are
the ones at which it fails.
-/
import Vapor.Proofs.Grammar.Reading

namespace Vapor

open Grammar

/-- Forgets a note. -/
abbrev Grammar.forget : Span → Unit :=
  fun _ => ()

/-- A word may be put in front of a line that begins with a word. -/
theorem Grammar.RowsForm.cons {t : Token} {ts us vs : List Token} {d : Datum Unit}
    {ds : List (Datum Unit)} (h : RowsForm (t :: us) vs ds) (hd : DatumForm ts (t :: us) d)
    (ht : t.kind ∈ [.ident, .colon, .integer]) (hitem : Token.AtItem vs) :
    RowsForm ts vs (d :: ds) := by
  cases h with
  | nil =>
    have hopens := hitem t rfl
    rcases t with ⟨kind, _, _⟩
    cases kind <;> simp [Token.Kind.opensItem] at ht hopens
  | blank hblank =>
    rw [hblank] at ht
    exact absurd ht (by decide)
  | row h heol hrest => exact .row (.more hd h) heol hrest

namespace Parser

open Token (Later)

variable {stop : Token} {ts : List Token}

/-! ### Operands -/

section Readers

variable (hstop : stop.kind = .eof)

include hstop

theorem meets_label :
    Meets stop label ts fun us l => LabelForm ts us (l.map forget) ∧ Later ts us := by
  refine (meets_expect hstop (by decide) _).bind ?_
  rintro us colon ⟨rfl, hcolon⟩
  refine (meets_expect hstop (by decide) _).bind ?_
  rintro vs name ⟨rfl, hname⟩
  exact meets_pure ⟨.intro hcolon hname, Later.cons.trans (List.suffix_cons _ _)⟩

theorem meets_operand (hts : ∀ t ∈ ts, t.Proper) :
    Meets stop operand ts fun us o => OperandForm ts us (o.map forget) ∧ Later ts us := by
  refine meets_current.bind ?_
  rintro _ _ ⟨rfl, rfl⟩
  split
  · rename_i hhead
    refine (meets_head hstop (by decide) hhead).bind ?_
    rintro us t ⟨rfl, ht⟩
    exact meets_pure ⟨.var ht, .cons⟩
  · rename_i hhead
    refine (meets_head hstop (by decide) hhead).bind ?_
    rintro us t ⟨rfl, ht⟩
    refine (meets_integer (hts t List.mem_cons_self) ht).bind ?_
    rintro _ n ⟨rfl, hn⟩
    exact meets_pure ⟨.int (.intro ht hn), .cons⟩
  · rename_i hhead
    refine (meets_head hstop (by decide) hhead).bind ?_
    rintro us t ⟨rfl, ht⟩
    exact meets_pure ⟨.text ht, .cons⟩
  · refine (meets_label hstop).bind ?_
    rintro us l ⟨hl, hlater⟩
    exact meets_pure ⟨.label hl, hlater⟩
  · exact meets_failHere _

/-- Operands up to a closing parenthesis. -/
theorem meets_operands {rounds : Nat} (hts : ∀ t ∈ ts, t.Proper) (hlen : ts.length < rounds) :
    Meets stop (operands rounds) ts fun us r =>
      (∃ close, OperandsForm ts (close :: us) (r.1.map (Operand.map forget)) ∧
        close.kind = .rparen) ∧ Later ts us := by
  induction rounds generalizing ts with
  | zero => exact absurd hlen (Nat.not_lt_zero _)
  | succ rounds ih =>
    refine meets_current.bind ?_
    rintro _ _ ⟨rfl, rfl⟩
    split
    · rename_i hhead
      refine (meets_head hstop (by decide) hhead).bind ?_
      rintro us t ⟨rfl, ht⟩
      exact meets_pure ⟨⟨t, .nil, ht⟩, .cons⟩
    · exact meets_failHere _
    · exact meets_failHere _
    · refine (meets_operand hstop hts).bind ?_
      rintro us o ⟨ho, hlater⟩
      have hshort := hlater.shorter
      refine (ih (Later.proper hlater.suffix hts) (by omega)).bind ?_
      rintro vs r ⟨⟨close, hos, hclose⟩, hlater'⟩
      exact meets_pure ⟨⟨close, .cons ho hos, hclose⟩, hlater.trans hlater'.suffix⟩

theorem meets_args (hts : ∀ t ∈ ts, t.Proper) :
    Meets stop args ts fun us r =>
      ArgsForm ts us (r.1.map (Operand.map forget)) ∧ Later ts us := by
  refine (meets_expect hstop (by decide) _).bind ?_
  rintro us opening ⟨rfl, hopening⟩
  refine meets_bound.bind ?_
  rintro _ _ ⟨rfl, rfl⟩
  refine (meets_operands hstop (Later.proper Later.cons.suffix hts) (by omega)).mono ?_
  rintro vs r ⟨⟨close, hos, hclose⟩, hlater⟩
  exact ⟨.intro hopening hos hclose, Later.cons.trans hlater.suffix⟩

theorem meets_offset (hts : ∀ t ∈ ts, t.Proper) :
    Meets stop offset ts fun us n => OffsetForm ts us n ∧ us <:+ ts := by
  refine meets_current.bind ?_
  rintro _ _ ⟨rfl, rfl⟩
  split
  · rename_i hhead
    refine (meets_head hstop (by decide) hhead).bind ?_
    rintro us t ⟨rfl, ht⟩
    refine (meets_expect hstop (by decide) _).bind ?_
    rintro vs number ⟨rfl, hnumber⟩
    refine (meets_integer (hts number (by simp)) hnumber).mono ?_
    rintro _ n ⟨rfl, hn⟩
    exact ⟨.plus ht (.intro hnumber hn), (List.suffix_cons _ _).trans (List.suffix_cons _ _)⟩
  · split
    · rename_i hhead
      refine (meets_head hstop (by decide) hhead.1).bind ?_
      rintro us t ⟨rfl, ht⟩
      refine (meets_integer (hts t List.mem_cons_self) ht).mono ?_
      rintro _ n ⟨rfl, hn⟩
      exact ⟨.minus (.intro ht hn) hhead.2, List.suffix_cons _ _⟩
    · exact meets_pure ⟨.none, List.suffix_refl _⟩

theorem meets_address (hts : ∀ t ∈ ts, t.Proper) (hopening : (ts.headD stop).kind = .lbracket) :
    Meets stop address ts fun us a => AddressForm ts us (a.map forget) ∧ Later ts us := by
  refine (meets_head hstop (by decide) hopening).bind ?_
  rintro us t ⟨rfl, ht⟩
  refine (meets_expect hstop (by decide) _).bind ?_
  rintro vs base ⟨rfl, hbase⟩
  have hvs : vs <:+ t :: base :: vs := (List.suffix_cons _ _).trans (List.suffix_cons _ _)
  refine (meets_offset hstop (Later.proper hvs hts)).bind ?_
  rintro ws n ⟨hn, hws⟩
  refine (meets_expect hstop (by decide) _).bind ?_
  rintro xs close ⟨rfl, hclose⟩
  refine meets_pure ⟨.intro ht hbase hn hclose, Later.cons.trans ?_⟩
  exact ((List.suffix_cons _ _).trans hws).trans (List.suffix_cons _ _)

/-! ### Instructions -/

theorem meets_call (hts : ∀ t ∈ ts, t.Proper) {dest : Option (Ref Span)} (start : Span)
    {all : List Token} (hdest : DestForm all ts (dest.map (Ref.map forget)))
    (hkeyword : (ts.headD stop).kind = .call) :
    Meets stop (call dest start) ts fun us i => InstrForm all us (i.map forget) ∧ Later ts us := by
  refine (meets_head hstop (by decide) hkeyword).bind ?_
  rintro us t ⟨rfl, ht⟩
  -- behind the callee, of either kind
  have hargs (vs : List Token) (c : Callee Span) (hc : CalleeForm us vs (c.map forget))
      (hvs : vs <:+ us) :
      Meets stop (do let r ← args; return Instr.call dest c r.1 (start.join r.2)) vs
      fun ws i => InstrForm all ws (i.map forget) ∧ Later (t :: us) ws := by
    have hlater : Later (t :: us) vs := Later.cons.trans hvs
    refine (meets_args hstop (Later.proper hlater.suffix hts)).bind ?_
    rintro ws r ⟨hr, hws⟩
    exact meets_pure ⟨.call hdest ht hc hr, hlater.trans hws.suffix⟩
  refine meets_current.bind ?_
  rintro _ _ ⟨rfl, rfl⟩
  split
  · refine (meets_label hstop).bind ?_
    rintro vs l ⟨hl, hlater⟩
    rw [pure_bind]
    exact hargs vs _ (.label hl) hlater.suffix
  · refine (meets_expect hstop (by decide) _).bind ?_
    rintro vs name ⟨rfl, hname⟩
    rw [pure_bind]
    exact hargs vs _ (.var hname) (List.suffix_cons _ _)

theorem meets_application (hts : ∀ t ∈ ts, t.Proper) {dest : Option (Ref Span)} (start : Span)
    {all : List Token} (hdest : DestForm all ts (dest.map (Ref.map forget)))
    (hop : (ts.headD stop).kind = .ident) :
    Meets stop (application dest start) ts fun us i =>
      InstrForm all us (i.map forget) ∧ Later ts us := by
  refine (meets_head hstop (by decide) hop).bind ?_
  rintro us t ⟨rfl, ht⟩
  refine (meets_args hstop (Later.proper Later.cons.suffix hts)).bind ?_
  rintro vs r ⟨hr, hvs⟩
  exact meets_pure ⟨.apply hdest ht hr, Later.cons.trans hvs.suffix⟩

theorem meets_assignment (hts : ∀ t ∈ ts, t.Proper) {dest : Ref Span} {all : List Token}
    (hdest : DestForm all ts (some (dest.map forget))) :
    Meets stop (assignment dest) ts fun us i =>
      InstrForm all us (i.map forget) ∧ Later ts us := by
  refine meets_get fun behind => ?_
  simp only [Cursor.current_on, Cursor.peek_on]
  split
  · refine (meets_address hstop hts ‹_›).bind ?_
    rintro us a ⟨ha, hlater⟩
    exact meets_pure ⟨.load hdest ha, hlater⟩
  · exact meets_call hstop hts _ hdest ‹_›
  · exact meets_application hstop hts _ hdest ‹_›
  · refine (meets_operand hstop hts).bind ?_
    rintro us o ⟨ho, hlater⟩
    exact meets_pure ⟨.assign hdest ho, hlater⟩

theorem meets_branch (hts : ∀ t ∈ ts, t.Proper) {positive : Bool}
    (hkeyword : (ts.headD stop).kind = if positive then .ifTrue else .ifZero) :
    Meets stop (branch positive) ts fun us i => InstrForm ts us (i.map forget) ∧ Later ts us := by
  refine (meets_head hstop (by cases positive <;> decide) hkeyword).bind ?_
  rintro us t ⟨rfl, ht⟩
  refine (meets_operand hstop (Later.proper Later.cons.suffix hts)).bind ?_
  rintro vs o ⟨ho, hvs⟩
  refine (meets_expect hstop (by decide) _).bind ?_
  rintro ws goto ⟨rfl, hgoto⟩
  refine (meets_label hstop).bind ?_
  rintro xs l ⟨hl, hxs⟩
  refine meets_pure ⟨.branch ht ho hgoto hl, Later.cons.trans ?_⟩
  exact (hxs.suffix.trans (List.suffix_cons _ _)).trans hvs.suffix

/-- **What is read as an instruction has the form of one.** -/
theorem meets_instr (hts : ∀ t ∈ ts, t.Proper) :
    Meets stop instr ts fun us i => InstrForm ts us (i.map forget) ∧ Later ts us := by
  refine meets_get fun behind => ?_
  simp only [Cursor.current_on, Cursor.peek_on]
  -- in the order of the reader: an assignment and an application are told apart by the
  -- second token, all others are known by their first
  split
  · rename_i hhead hpeek
    refine (meets_head hstop (by decide) hhead).bind ?_
    rintro us t ⟨rfl, ht⟩
    refine (meets_head hstop (by decide) hpeek).bind ?_
    rintro vs eq ⟨rfl, heq⟩
    have hlater : Later (t :: eq :: vs) vs := Later.cons.trans (List.suffix_cons _ _)
    refine (meets_assignment hstop (Later.proper hlater.suffix hts) (.some ht heq)).mono ?_
    rintro ws i ⟨hi, hws⟩
    exact ⟨hi, hlater.trans hws.suffix⟩
  · exact meets_application hstop hts _ .none ‹_›
  · refine (meets_address hstop hts ‹_›).bind ?_
    rintro us a ⟨ha, hus⟩
    refine (meets_expect hstop (by decide) _).bind ?_
    rintro vs eq ⟨rfl, heq⟩
    have hlater := hus.trans (List.suffix_cons eq vs)
    refine (meets_operand hstop (Later.proper hlater.suffix hts)).bind ?_
    rintro ws o ⟨ho, hws⟩
    exact meets_pure ⟨.store ha heq ho, hlater.trans hws.suffix⟩
  · exact meets_call hstop hts _ .none ‹_›
  · exact meets_branch hstop hts ‹_›
  · exact meets_branch hstop hts ‹_›
  · rename_i hhead
    refine (meets_head hstop (by decide) hhead).bind ?_
    rintro us t ⟨rfl, ht⟩
    refine (meets_label hstop).bind ?_
    rintro vs l ⟨hl, hvs⟩
    exact meets_pure ⟨.goto ht hl, Later.cons.trans hvs.suffix⟩
  · rename_i hhead
    refine (meets_head hstop (by decide) hhead).bind ?_
    rintro us t ⟨rfl, ht⟩
    -- whether a value follows does not matter here: there is a form for either
    refine meets_get fun behind => ?_
    split
    · exact meets_pure ⟨.ret ht, .cons⟩
    · refine (meets_operand hstop (Later.proper Later.cons.suffix hts)).bind ?_
      rintro vs o ⟨ho, hvs⟩
      exact meets_pure ⟨.retValue ht ho, Later.cons.trans hvs.suffix⟩
  · exact meets_failHere _

/-! ### Segments -/

theorem meets_datum (hts : ∀ t ∈ ts, t.Proper) :
    Meets stop datum ts fun us d => DatumForm ts us (d.map forget) ∧ Later ts us := by
  refine meets_current.bind ?_
  rintro _ _ ⟨rfl, rfl⟩
  split
  · refine (meets_label hstop).bind ?_
    rintro us l ⟨hl, hlater⟩
    exact meets_pure ⟨.label hl, hlater⟩
  · rename_i hhead
    refine (meets_head hstop (by decide) hhead).bind ?_
    rintro us t ⟨rfl, ht⟩
    refine (meets_integer (hts t List.mem_cons_self) ht).bind ?_
    rintro _ n ⟨rfl, hn⟩
    exact meets_pure ⟨.int (.intro ht hn), .cons⟩
  · exact meets_failHere _

/-- The lines of a segment reach up to the next item. -/
theorem meets_data {rounds : Nat} (last : Span) (hts : ∀ t ∈ ts, t.Proper)
    (hlen : ts.length < rounds) :
    Meets stop (data last rounds) ts fun us r =>
      (RowsForm ts us (r.1.map (Datum.map forget)) ∧ Token.AtItem us) ∧ us <:+ ts := by
  induction rounds generalizing ts last with
  | zero => exact absurd hlen (Nat.not_lt_zero _)
  | succ rounds ih =>
    refine meets_get fun behind => ?_
    rw [Cursor.current_on]
    split
    · exact meets_pure ⟨⟨.nil, Cursor.atItem_of_atItem_on hstop hts ‹_›⟩, List.suffix_refl _⟩
    · split
      · rename_i hhead
        refine (meets_head hstop (by decide) hhead).bind ?_
        rintro us t ⟨rfl, ht⟩
        have hlater : Later (t :: us) us := .cons
        refine (ih last (Later.proper hlater.suffix hts) (Nat.lt_of_succ_lt_succ hlen)).mono ?_
        rintro vs r ⟨⟨hr, hitem⟩, hvs⟩
        exact ⟨⟨.blank ht hr, hitem⟩, (hlater.trans hvs).suffix⟩
      · refine (meets_datum hstop hts).bind ?_
        rintro us d ⟨hd, hlater⟩
        have hshort := hlater.shorter
        have hus := Later.proper hlater.suffix hts
        refine meets_get fun behind => ?_
        dsimp only
        split
        · -- another word on the same line, so the lines read from there on begin with a row
          -- to which this word belongs
          rename_i hany
          rw [pure_bind]
          refine (ih last hus (by omega)).bind ?_
          rintro vs r ⟨⟨hr, hitem⟩, hvs⟩
          refine meets_pure ⟨⟨?_, hitem⟩, (hlater.trans hvs).suffix⟩
          cases us with
          | nil => simp [Cursor.isAny, hstop] at hany
          | cons t us => exact hr.cons hd (List.contains_iff_mem.mp hany) hitem
        · refine (meets_endOfLine hstop hus _).bind ?_
          rintro vs t ⟨heol, hvs⟩
          rw [pure_bind]
          have hlength := hvs.length_le
          refine (ih _ (Later.proper hvs hus) (by omega)).bind ?_
          rintro ws r ⟨⟨hr, hitem⟩, hws⟩
          refine meets_pure ⟨⟨.row (.one hd) heol hr, hitem⟩, ?_⟩
          exact ((hlater.trans hvs).trans hws).suffix

theorem meets_segment {keyword : Token} (hts : ∀ t ∈ ts, t.Proper)
    (hkeyword : keyword.kind = .const ∨ keyword.kind = .var) :
    Meets stop (segment keyword) ts fun us s =>
      SegmentForm (keyword :: ts) us (s.map forget) ∧ us <:+ ts := by
  refine (meets_expect hstop (by decide) _).bind ?_
  rintro us name ⟨rfl, hname⟩
  have hus := Later.proper (List.suffix_cons _ _) hts
  refine (meets_endOfLine hstop hus _).bind ?_
  rintro vs header ⟨heol, hvs⟩
  refine meets_bound.bind ?_
  rintro _ _ ⟨rfl, rfl⟩
  refine (meets_data hstop _ (Later.proper hvs hus) (by omega)).bind ?_
  rintro ws r ⟨⟨hr, -⟩, hws⟩
  refine meets_pure ⟨.intro ?_ hname heol hr, (hws.trans hvs).trans (List.suffix_cons _ _)⟩
  rcases hkeyword with h | h <;> rw [h] <;> rfl

/-! ### Functions -/

/-- Names up to a closing parenthesis. -/
theorem meets_params {rounds : Nat} (seen : List String) (hts : ∀ t ∈ ts, t.Proper)
    (hlen : ts.length < rounds) :
    Meets stop (params seen rounds) ts fun us r =>
      (∃ close, ParamsForm ts (close :: us) (r.1.map (Ref.map forget)) ∧ close.kind = .rparen) ∧
        us <:+ ts := by
  induction rounds generalizing ts seen with
  | zero => exact absurd hlen (Nat.not_lt_zero _)
  | succ rounds ih =>
    refine meets_current.bind ?_
    rintro _ _ ⟨rfl, rfl⟩
    split
    · rename_i hhead
      refine (meets_head hstop (by decide) hhead).bind ?_
      rintro us t ⟨rfl, ht⟩
      exact meets_pure ⟨⟨t, .nil, ht⟩, List.suffix_cons _ _⟩
    · refine (meets_expect hstop (by decide) _).bind ?_
      rintro us name ⟨rfl, hname⟩
      split
      · exact Meets.bind (Q := fun _ _ => False) (meets_fault _ _) fun _ _ h => h.elim
      · have hlater : Later (name :: us) us := .cons
        refine (ih _ (Later.proper hlater.suffix hts) (Nat.lt_of_succ_lt_succ hlen)).bind ?_
        rintro vs r ⟨⟨close, hr, hclose⟩, hvs⟩
        exact meets_pure ⟨⟨close, .cons hname hr, hclose⟩, (hlater.trans hvs).suffix⟩

theorem meets_block {rounds : Nat} (index : Nat) (seen : List String) (last : Span)
    (hts : ∀ t ∈ ts, t.Proper) (hlen : ts.length < rounds) :
    Meets stop (block index seen last rounds) ts fun us b =>
      LinesForm index ts us (b.body.map (Instr.map forget)) (b.labels.map (Label.map forget)) ∧
        us <:+ ts := by
  induction rounds generalizing ts index seen last with
  | zero => exact absurd hlen (Nat.not_lt_zero _)
  | succ rounds ih =>
    refine meets_get fun behind => ?_
    rw [Cursor.current_on, Cursor.peek_on]
    -- the end of the function, an empty line, a label, or else an instruction
    split
    · exact meets_pure ⟨.nil, List.suffix_refl _⟩
    split
    · rename_i hhead
      refine (meets_head hstop (by decide) hhead).bind ?_
      rintro us t ⟨rfl, ht⟩
      have hlater : Later (t :: us) us := .cons
      refine (ih index seen last (Later.proper hlater.suffix hts)
        (Nat.lt_of_succ_lt_succ hlen)).mono ?_
      rintro vs b ⟨hb, hvs⟩
      exact ⟨.blank ht hb, (hlater.trans hvs).suffix⟩
    split
    · rename_i hhead
      refine (meets_head hstop (by decide) hhead.1).bind ?_
      rintro us t ⟨rfl, ht⟩
      refine (meets_head hstop (by decide) hhead.2).bind ?_
      rintro vs colon ⟨rfl, hcolon⟩
      split
      · exact Meets.bind (Q := fun _ _ => False) (meets_fault _ _) fun _ _ h => h.elim
      · have hlater : Later (t :: colon :: vs) vs := Later.cons.trans (List.suffix_cons _ _)
        have hvs := Later.proper hlater.suffix hts
        refine (meets_endOfLine hstop hvs _).bind ?_
        rintro ws _ ⟨heol, hws⟩
        have hshort := (hlater.trans hws).shorter
        refine (ih index _ t.span (Later.proper hws hvs) (by omega)).bind ?_
        rintro xs b ⟨hb, hxs⟩
        exact meets_pure ⟨.label ht hcolon heol hb, ((hlater.trans hws).trans hxs).suffix⟩
    · refine (meets_instr hstop hts).bind ?_
      rintro us i ⟨hi, hlater⟩
      have hus := Later.proper hlater.suffix hts
      refine (meets_endOfLine hstop hus _).bind ?_
      rintro vs _ ⟨heol, hvs⟩
      have hshort := (hlater.trans hvs).shorter
      refine (ih (index + 1) seen i.note (Later.proper hvs hus) (by omega)).bind ?_
      rintro ws b ⟨hb, hws⟩
      exact meets_pure ⟨.instr hi heol hb, ((hlater.trans hvs).trans hws).suffix⟩

theorem meets_function {keyword : Token} (hts : ∀ t ∈ ts, t.Proper)
    (hkeyword : keyword.kind = .func) :
    Meets stop (function keyword) ts fun us f =>
      FunctionForm (keyword :: ts) us (f.map forget) ∧ us <:+ ts := by
  refine (meets_expect hstop (by decide) _).bind ?_
  rintro us name ⟨rfl, hname⟩
  refine (meets_expect hstop (by decide) _).bind ?_
  rintro vs opening ⟨rfl, hopening⟩
  have hvs : vs <:+ name :: opening :: vs := (List.suffix_cons _ _).trans (List.suffix_cons _ _)
  refine meets_bound.bind ?_
  rintro _ _ ⟨rfl, rfl⟩
  refine ((meets_params hstop [] (Later.proper hvs hts) (by omega)).and
    (params_ensures _ _)).bind ?_
  rintro ws r ⟨⟨⟨close, hr, hclose⟩, hws⟩, hdistinct, -⟩
  replace hws := hws.trans hvs
  refine (meets_endOfLine hstop (Later.proper hws hts) _).bind ?_
  rintro xs _ ⟨heol, hxs⟩
  replace hxs := hxs.trans hws
  refine meets_bound.bind ?_
  rintro _ _ ⟨rfl, rfl⟩
  refine ((meets_block hstop 0 [] r.2 (Later.proper hxs hts) (by omega)).and
    (block_ensures _ _ _ _)).bind ?_
  rintro ys b ⟨⟨hb, hys⟩, hfits⟩
  refine meets_pure ⟨.intro hkeyword hname hopening hr hclose heol hb ?_ ?_, hys.trans hxs⟩
  · rw [List.map_map]
    exact hdistinct
  · rw [List.map_map]
    exact hfits.nodup

/-! ### Programs -/

theorem meets_items {rounds : Nat} (hts : ∀ t ∈ ts, t.Proper) (hlen : ts.length < rounds) :
    Meets stop (items rounds) ts fun _ r =>
      ItemsForm ts (r.1.map (Segment.map forget)) (r.2.map (Function.map forget)) := by
  induction rounds generalizing ts with
  | zero => exact absurd hlen (Nat.not_lt_zero _)
  | succ rounds ih =>
    -- behind the first token of an item
    have hitem {t : Token} {us vs : List Token} (heq : ts = t :: us) (hvs : vs <:+ us) :
        (∀ t ∈ vs, t.Proper) ∧ vs.length < rounds := by
      subst heq
      have hshort := (Later.cons.trans hvs : Later (t :: us) vs).shorter
      exact ⟨Later.proper (hvs.trans (List.suffix_cons _ _)) hts, by omega⟩
    have hsegment {kind : Token.Kind} (hkind : kind = .const ∨ kind = .var)
        (hhead : (ts.headD stop).kind = kind) : Meets stop (do
          let _ ← next
          let segment ← segment (ts.headD stop)
          let r ← items rounds
          return (segment :: r.1, r.2)) ts fun _ r =>
        ItemsForm ts (r.1.map (Segment.map forget)) (r.2.map (Function.map forget)) := by
      have hinner : kind ≠ .eof := by rcases hkind with rfl | rfl <;> decide
      refine (meets_head hstop hinner hhead).bind ?_
      rintro us t ⟨rfl, rfl⟩
      refine (meets_segment hstop (hitem rfl (List.suffix_refl _)).1 hkind).bind ?_
      rintro vs s ⟨hs, hvs⟩
      obtain ⟨hproper, hshort⟩ := hitem rfl hvs
      refine (ih hproper hshort).bind ?_
      rintro ws r hr
      exact meets_pure (.segment hs hr)
    refine meets_current.bind ?_
    rintro ts _ ⟨rfl, rfl⟩
    split
    · rename_i hhead
      cases ts with
      | nil => exact meets_pure .nil
      | cons t us => exact absurd hhead (hts t List.mem_cons_self).inner
    · rename_i hhead
      refine (meets_head hstop (by decide) hhead).bind ?_
      rintro us t ⟨rfl, ht⟩
      obtain ⟨hproper, hshort⟩ := hitem rfl (List.suffix_refl _)
      exact (ih hproper hshort).mono fun _ _ hr => .blank ht hr
    · exact hsegment (.inl rfl) ‹_›
    · exact hsegment (.inr rfl) ‹_›
    · rename_i hhead
      refine (meets_head hstop (by decide) hhead).bind ?_
      rintro us t ⟨rfl, ht⟩
      refine (meets_function hstop (hitem rfl (List.suffix_refl _)).1 ht).bind ?_
      rintro vs f ⟨hf, hvs⟩
      obtain ⟨hproper, hshort⟩ := hitem rfl hvs
      refine (ih hproper hshort).bind ?_
      rintro ws r hr
      exact meets_pure (.function hf hr)
    · exact meets_failHere _

omit hstop in
/-- No item is reported exactly if the names are distinct and new. -/
theorem duplicate?_eq_none {seen : List String} {items : List (String × Span)} :
    duplicate? seen items = none ↔
      (items.map Prod.fst).Nodup ∧ ∀ name ∈ items.map Prod.fst, name ∉ seen := by
  induction items generalizing seen with
  | nil => simp [duplicate?]
  | cons item items ih =>
    unfold duplicate?
    split
    · rename_i hmem
      refine ⟨nofun, fun h => absurd hmem (h.2 _ List.mem_cons_self)⟩
    · rename_i hmem
      rw [ih, List.map_cons, List.nodup_cons]
      constructor
      · rintro ⟨hnodup, hnew⟩
        refine ⟨⟨fun h => hnew _ h List.mem_cons_self, hnodup⟩, ?_⟩
        rintro name (_ | ⟨_, hname⟩)
        · exact hmem
        · exact fun h => hnew name hname (List.mem_cons_of_mem _ h)
      · rintro ⟨⟨hfirst, hnodup⟩, hnew⟩
        refine ⟨hnodup, fun name hname h => ?_⟩
        rcases List.mem_cons.mp h with rfl | h
        · exact hfirst hname
        · exact hnew name (List.mem_cons_of_mem _ hname) h

/-- **What is read as a program is derived from its tokens**, and what is not derived
fails at a token. -/
theorem meets_program (hts : ∀ t ∈ ts, t.Proper) :
    Meets stop program ts fun _ p => Derives ts p.erase := by
  refine meets_current.bind ?_
  rintro _ start ⟨rfl, -⟩
  refine meets_bound.bind ?_
  rintro _ _ ⟨rfl, rfl⟩
  refine (meets_items hstop hts (by omega)).bind ?_
  rintro vs ⟨segments, functions⟩ hr
  dsimp only
  split
  · exact meets_fault _ _
  · rename_i hnone
    obtain ⟨hnodup, -⟩ := duplicate?_eq_none.mp hnone
    refine meets_current.bind ?_
    rintro _ _ ⟨rfl, -⟩
    refine meets_pure ⟨hr, ?_⟩
    simpa [Program.erase, Program.map, Segment.map, Function.map, Function.comp_def] using hnodup

end Readers

end Parser

end Vapor
