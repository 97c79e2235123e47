/-
Vapor/Proofs/Grammar/Faults.lean

What the reader of tokens can fail with, on tokens that come to an end.  Either it reports a
fault, and then the span of the fault reaches from the beginning of one of the tokens to the
end of the same token or a later one, or it has come to an integer whose text cannot be read
(`parse_outcome`).  In particular the loops never run into their bounds.  If it succeeds, then
all integers could be read (`readable_of_parse`).

`Handles` says this of a single reader that works on the end of a list of tokens.  Nearly all
faults are at the token at hand.  Only an item with the name of an earlier one is reported
with its own span, so for every reader along the way to an item it has to be known where the
last token it has read ends (`EndsAt`), which also tells that it has read one.
-/
import Vapor.Proofs.Grammar.Reading

namespace Vapor

/-- The span reaches from the beginning of a token to the end of that or a later one. -/
def Token.Spanned (ts : List Token) (span : Span) : Prop :=
  ∃ t us u, t :: us <:+ ts ∧ u ∈ t :: us ∧ span = ⟨t.span.start, u.span.stop⟩

/-- The tokens have been read up to these others, and the last one read ends there. -/
def Token.EndsAt (ts us : List Token) (p : Pos) : Prop :=
  ∃ read t, ts = read ++ t :: us ∧ p = t.span.stop

namespace Token.EndsAt

variable {ts us vs : List Token} {p : Pos}

theorem shorter (h : EndsAt ts us p) : us.length < ts.length := by
  obtain ⟨read, t, rfl, -⟩ := h
  simp only [List.length_append, List.length_cons]
  omega

theorem exists_mem (h : EndsAt ts us p) : ∃ t ∈ ts, p = t.span.stop := by
  obtain ⟨read, t, rfl, hp⟩ := h
  exact ⟨t, by simp, hp⟩

theorem before (h : EndsAt us vs p) (hus : us <:+ ts) : EndsAt ts vs p := by
  obtain ⟨first, rfl⟩ := hus
  obtain ⟨read, t, rfl, hp⟩ := h
  exact ⟨first ++ read, t, (List.append_assoc _ _ _).symm, hp⟩

theorem one {t : Token} : EndsAt (t :: us) us t.span.stop :=
  ⟨[], t, rfl, rfl⟩

end Token.EndsAt

open Token (Spanned EndsAt)

section Places

variable {all ts us : List Token} {stop t u : Token}

/-- The end of the text lies behind any part of it. -/
theorem mem_concat_of_suffix (hus : us <:+ ts) (ht : t ∈ us ++ [stop]) : t ∈ ts ++ [stop] := by
  rcases List.mem_append.mp ht with ht | ht
  · exact List.mem_append_left _ (hus.subset ht)
  · exact List.mem_append_right _ ht

theorem spanned_of_suffix (hts : t :: us <:+ all) (hu : u ∈ us ++ [stop]) :
    Spanned (all ++ [stop]) ⟨t.span.start, u.span.stop⟩ := by
  obtain ⟨first, rfl⟩ := hts
  exact ⟨t, us ++ [stop], u, ⟨first, by simp⟩, List.mem_cons_of_mem t hu, rfl⟩

theorem spanned_of_mem (ht : t ∈ all ++ [stop]) : Spanned (all ++ [stop]) t.span := by
  obtain ⟨first, us, hall⟩ := List.append_of_mem ht
  exact ⟨t, us, t, ⟨first, hall.symm⟩, List.mem_cons_self, rfl⟩

end Places

/-- The tokens have been read up to these others, and integers among them could be read. -/
structure Token.Past (ts us : List Token) : Prop where
  suffix : us <:+ ts
  read : ∀ t ∈ ts, t ∈ us ∨ t.Readable

namespace Token.Past

variable {ts us vs : List Token} {t : Token}

theorem refl : Past ts ts :=
  ⟨List.suffix_refl _, fun _ => .inl⟩

theorem trans (h : Past ts us) (h' : Past us vs) : Past ts vs := by
  refine ⟨h'.suffix.trans h.suffix, fun t ht => ?_⟩
  rcases h.read t ht with hus | hread
  · exact h'.read t hus
  · exact .inr hread

theorem cons (ht : t.Readable) : Past (t :: ts) ts := by
  refine ⟨List.suffix_cons _ _, fun u hu => ?_⟩
  rcases List.mem_cons.mp hu with rfl | hu
  · exact .inr ht
  · exact .inl hu

end Token.Past

namespace Parser

variable {β γ : Type}

/-! ### Outcomes -/

/-- What can come of a reader on some tokens at the end of all of them. -/
inductive Outcome (all : List Token) (stop : Token) (ts : List Token)
    (Q : List Token → β → Prop) : Except ParseError (β × Cursor) → Prop where
  | ok {behind us : List Token} {b : β} (hus : Token.Past ts us) (h : Q us b) :
      Outcome all stop ts Q (.ok (b, .on stop behind us))
  | fault {what : ParseFault} {span : Span} (h : Spanned (all ++ [stop]) span) :
      Outcome all stop ts Q (.error (.fault what span))
  | integer {t : Token} {cause : Text.IntegerError} (ht : t ∈ all) (hkind : t.kind = .integer)
      (hread : Text.readInteger t.lexeme = .error cause) :
      Outcome all stop ts Q (.error (.integer cause))

/-- The reader comes to one of these outcomes on the tokens. -/
def Handles (all : List Token) (stop : Token) (x : Parser β) (ts : List Token)
    (Q : List Token → β → Prop) : Prop :=
  ts <:+ all → ∀ behind, Outcome all stop ts Q (x.run (.on stop behind ts))

section Rules

variable {all ts us : List Token} {stop t : Token} {Q : List Token → β → Prop}
  {R : List Token → γ → Prop}

/-- What comes of a reader further on may come of it here. -/
theorem Outcome.before {r : Except ParseError (β × Cursor)} (h : Outcome all stop us Q r)
    (hus : Token.Past ts us) : Outcome all stop ts Q r := by
  cases h with
  | ok hvs hQ => exact .ok (hus.trans hvs) hQ
  | fault h => exact .fault h
  | integer ht hkind hread => exact .integer ht hkind hread

theorem handles_pure {b : β} (h : Q ts b) : Handles all stop (pure b) ts Q :=
  fun _ _ => .ok .refl h

theorem handles_fault {what : ParseFault} {span : Span} (h : Spanned (all ++ [stop]) span) :
    Handles all stop (throw (.fault what span) : Parser β) ts Q :=
  fun _ _ => .fault h

theorem Handles.bind {x : Parser β} {f : β → Parser γ} (hx : Handles all stop x ts Q)
    (hf : ∀ us b, us <:+ ts → Q us b → Handles all stop (f b) us R) :
    Handles all stop (x >>= f) ts R := by
  intro hts behind
  rw [StateT.run_bind]
  have hout := hx hts behind
  generalize x.run (.on stop behind ts) = r at hout
  cases hout with
  | @ok behind' us b hus hQ =>
    exact (hf us b hus.suffix hQ (hus.suffix.trans hts) behind').before hus
  | fault h => exact .fault h
  | integer ht hkind hread => exact .integer ht hkind hread

theorem Handles.mono {Q' : List Token → β → Prop} {x : Parser β} (hx : Handles all stop x ts Q)
    (h : ∀ us b, us <:+ ts → Q us b → Q' us b) : Handles all stop x ts Q' := by
  intro hts behind
  have hout := hx hts behind
  generalize x.run (.on stop behind ts) = r at hout
  cases hout with
  | ok hus hQ => exact .ok hus (h _ _ hus.suffix hQ)
  | fault h => exact .fault h
  | integer ht hkind hread => exact .integer ht hkind hread

theorem handles_get {f : Cursor → Parser γ}
    (h : ∀ behind, Handles all stop (f (.on stop behind ts)) ts R) :
    Handles all stop (get >>= f) ts R :=
  fun hts behind => h behind hts behind

theorem handles_current :
    Handles all stop current ts fun us t => us = ts ∧ t = ts.headD stop := by
  intro _ behind
  show Outcome all stop ts _ (.ok ((Cursor.on stop behind ts).current, .on stop behind ts))
  exact .ok .refl ⟨rfl, Cursor.current_on⟩

theorem handles_bound : Handles all stop bound ts fun us n => us = ts ∧ n = ts.length + 2 := by
  intro _ behind
  show Outcome all stop ts _ (.ok ((Cursor.on stop behind ts).ahead.length + 2, .on stop behind ts))
  exact .ok .refl ⟨rfl, congrArg (· + 2) Cursor.length_ahead_on⟩

/-- A reader may rely on working at the end of all tokens. -/
theorem handles_of_suffix {x : Parser β} (h : ts <:+ all → Handles all stop x ts Q) :
    Handles all stop x ts Q :=
  fun hts => h hts hts

/-- The token at hand is a place for a fault. -/
theorem handles_failHere (what : ParseFault) :
    Handles all stop (failHere what : Parser β) ts Q := by
  intro hts behind
  show Outcome all stop ts Q (.error (.fault what (Cursor.on stop behind ts).current.span))
  rw [Cursor.current_on]
  refine .fault (spanned_of_mem (mem_concat_of_suffix hts ?_))
  cases ts <;> simp

/-- So is a token that has been read, and nothing more is read behind a fault. -/
theorem handles_faultAt {what : ParseFault} {f : β → Parser γ} (ht : t ∈ all) :
    Handles all stop (throw (.fault what t.span) >>= f) ts R :=
  fun _ _ => .fault (spanned_of_mem (List.mem_append_left _ ht))

/-- Where it is known of what kind the token at hand is. -/
theorem handles_head {kind : Token.Kind} (hstop : stop.kind = .eof)
    (hkind : kind ≠ .eof ∧ kind ≠ .integer) (h : (ts.headD stop).kind = kind) :
    Handles all stop next ts fun us t => ts = t :: us ∧ t.kind = kind ∧ t ∈ all := by
  intro hts behind
  cases ts with
  | nil => exact absurd (h.symm.trans hstop) hkind.1
  | cons t us =>
    have ht : t.kind ≠ .eof := fun ht => hkind.1 (h.symm.trans ht)
    show Outcome all stop _ _ (.ok (t, (Cursor.on stop behind (t :: us)).advance))
    rw [Cursor.advance_on ht]
    refine .ok (.cons fun ht => ?_) ⟨rfl, h, hts.subset List.mem_cons_self⟩
    exact absurd (h.symm.trans ht) hkind.2

/-- Behind an integer the reader has to find out whether it can be read. -/
theorem handles_headInteger {f : Token → Parser γ} (hstop : stop.kind = .eof)
    (h : (ts.headD stop).kind = .integer)
    (hf : ∀ us t, ts = t :: us → t.kind = .integer → t ∈ all →
      Handles all stop (f t) us fun vs c => R vs c ∧ t.Readable) :
    Handles all stop (next >>= f) ts R := by
  intro hts behind
  cases ts with
  | nil => exact nomatch h.symm.trans hstop
  | cons t us =>
    have ht : t.kind ≠ .eof := fun ht => nomatch h.symm.trans ht
    have hus : us <:+ all := (List.suffix_cons t us).trans hts
    have hout := hf us t rfl h (hts.subset List.mem_cons_self) hus (t :: behind)
    have hrun : (next >>= f).run (.on stop behind (t :: us)) = (f t).run (.on stop (t :: behind) us) := by
      show (f t).run (Cursor.on stop behind (t :: us)).advance = _
      rw [Cursor.advance_on ht]
    rw [hrun]
    generalize (f t).run (.on stop (t :: behind) us) = r at hout
    cases hout with
    | ok hvs hQ => exact .ok ((Token.Past.cons hQ.2).trans hvs) hQ.1
    | fault h => exact .fault h
    | integer ht hkind hread => exact .integer ht hkind hread

theorem handles_expect (hstop : stop.kind = .eof) {kind : Token.Kind}
    (hkind : kind ≠ .eof ∧ kind ≠ .integer) (what : ParseFault) :
    Handles all stop (expect kind what) ts fun us t => ts = t :: us ∧ t.kind = kind ∧ t ∈ all := by
  refine handles_current.bind ?_
  rintro _ _ - ⟨rfl, rfl⟩
  split
  · exact handles_head hstop hkind ‹_›
  · exact handles_failHere what

theorem handles_expectInteger {f : Token → Parser γ} (hstop : stop.kind = .eof)
    (what : ParseFault) (hf : ∀ us t, ts = t :: us → t.kind = .integer → t ∈ all →
      Handles all stop (f t) us fun vs c => R vs c ∧ t.Readable) :
    Handles all stop (expect .integer what >>= f) ts R := by
  rw [expect, bind_assoc]
  refine handles_current.bind ?_
  rintro _ _ - ⟨rfl, rfl⟩
  split
  · exact handles_headInteger hstop ‹_› hf
  · exact (handles_failHere what).bind fun _ _ _ (h : False) => h.elim

theorem handles_endOfLine (hstop : stop.kind = .eof) (what : ParseFault) :
    Handles all stop (endOfLine what) ts fun _ t => t ∈ ts ++ [stop] := by
  refine handles_get fun behind => ?_
  split
  · refine handles_current.mono ?_
    rintro us _ - ⟨rfl, rfl⟩
    cases us <;> simp
  · refine (handles_expect hstop (by decide) what).mono ?_
    rintro us t - ⟨rfl, -, -⟩
    exact List.mem_cons_self

theorem handles_integer (ht : t ∈ all) (hkind : t.kind = .integer) :
    Handles all stop (integer t) ts fun us _ => us = ts ∧ t.Readable := by
  intro _ behind
  unfold integer
  rcases hread : Text.readInteger t.lexeme with cause | n
  · exact .integer ht hkind hread
  · exact .ok .refl ⟨rfl, fun _ => ⟨n, hread⟩⟩

end Rules

/-! ### Operands -/

section Readers

variable {all ts : List Token} {stop : Token} (hstop : stop.kind = .eof)

include hstop

theorem handles_label : Handles all stop label ts fun us l => EndsAt ts us l.note.stop := by
  refine (handles_expect hstop (by decide) _).bind ?_
  rintro us colon - ⟨rfl, -, -⟩
  refine (handles_expect hstop (by decide) _).bind ?_
  rintro vs name hvs ⟨rfl, -, -⟩
  exact handles_pure (EndsAt.one.before (List.suffix_cons _ _))

theorem handles_operand : Handles all stop operand ts fun us o => EndsAt ts us o.note.stop := by
  refine handles_current.bind ?_
  rintro _ _ - ⟨rfl, rfl⟩
  split
  · rename_i hhead
    refine (handles_head hstop (by decide) hhead).bind ?_
    rintro us t - ⟨rfl, -, -⟩
    exact handles_pure .one
  · rename_i hhead
    refine handles_headInteger hstop hhead ?_
    rintro us t rfl hkind ht
    refine (handles_integer ht hkind).bind ?_
    rintro _ n - ⟨rfl, hread⟩
    exact handles_pure ⟨.one, hread⟩
  · rename_i hhead
    refine (handles_head hstop (by decide) hhead).bind ?_
    rintro us t - ⟨rfl, -, -⟩
    exact handles_pure .one
  · refine (handles_label hstop).bind ?_
    rintro us l - hl
    exact handles_pure hl
  · exact handles_failHere _

theorem handles_operands {rounds : Nat} (hlen : ts.length < rounds) :
    Handles all stop (operands rounds) ts fun us r => EndsAt ts us r.2.stop := by
  induction rounds generalizing ts with
  | zero => exact absurd hlen (Nat.not_lt_zero _)
  | succ rounds ih =>
    refine handles_current.bind ?_
    rintro _ _ - ⟨rfl, rfl⟩
    split
    · rename_i hhead
      refine (handles_head hstop (by decide) hhead).bind ?_
      rintro us t - ⟨rfl, -, -⟩
      exact handles_pure .one
    · exact handles_failHere _
    · exact handles_failHere _
    · refine (handles_operand hstop).bind ?_
      rintro us o hus ho
      have hshort := ho.shorter
      refine (ih (by omega)).bind ?_
      rintro vs r - hr
      exact handles_pure (hr.before hus)

theorem handles_args : Handles all stop args ts fun us r => EndsAt ts us r.2.stop := by
  refine (handles_expect hstop (by decide) _).bind ?_
  rintro us opening hus -
  refine handles_bound.bind ?_
  rintro _ _ - ⟨rfl, rfl⟩
  refine (handles_operands hstop (by omega)).mono ?_
  rintro vs r - hr
  exact hr.before hus

theorem handles_offset : Handles all stop offset ts fun _ _ => True := by
  refine handles_current.bind ?_
  rintro _ _ - ⟨rfl, rfl⟩
  split
  · rename_i hhead
    refine (handles_head hstop (by decide) hhead).bind ?_
    rintro us t - -
    refine handles_expectInteger hstop _ ?_
    rintro vs number - hkind hnumber
    exact (handles_integer hnumber hkind).mono fun _ _ _ h => ⟨trivial, h.2⟩
  · split
    · rename_i hhead
      refine handles_headInteger hstop hhead.1 ?_
      rintro us t rfl hkind ht
      exact (handles_integer ht hkind).mono fun _ _ _ h => ⟨trivial, h.2⟩
    · exact handles_pure trivial

theorem handles_address (hopening : (ts.headD stop).kind = .lbracket) :
    Handles all stop address ts fun us a => EndsAt ts us a.note.stop := by
  refine (handles_head hstop (by decide) hopening).bind ?_
  rintro us opening hus -
  refine (handles_expect hstop (by decide) _).bind ?_
  rintro vs base hvs -
  refine (handles_offset hstop).bind ?_
  rintro ws n hws -
  refine (handles_expect hstop (by decide) _).bind ?_
  rintro xs close - ⟨rfl, -, -⟩
  exact handles_pure (EndsAt.one.before ((hws.trans hvs).trans hus))

/-! ### Instructions -/

theorem handles_call (dest : Option (Ref Span)) (start : Span)
    (hkeyword : (ts.headD stop).kind = .call) :
    Handles all stop (call dest start) ts fun us i => EndsAt ts us i.note.stop := by
  refine (handles_head hstop (by decide) hkeyword).bind ?_
  rintro us keyword hus -
  have hargs (vs : List Token) (c : Callee Span) (hvs : vs <:+ us) :
      Handles all stop (do let r ← args; return Instr.call dest c r.1 (start.join r.2)) vs
        fun ws i => EndsAt ts ws i.note.stop := by
    refine (handles_args hstop).bind ?_
    rintro ws r - hr
    exact handles_pure (hr.before (hvs.trans hus))
  refine handles_current.bind ?_
  rintro _ _ - ⟨rfl, rfl⟩
  split
  · refine (handles_label hstop).bind ?_
    rintro vs l hvs -
    rw [pure_bind]
    exact hargs vs _ hvs
  · refine (handles_expect hstop (by decide) _).bind ?_
    rintro vs name hvs -
    rw [pure_bind]
    exact hargs vs _ hvs

theorem handles_application (dest : Option (Ref Span)) (start : Span)
    (hop : (ts.headD stop).kind = .ident) :
    Handles all stop (application dest start) ts fun us i => EndsAt ts us i.note.stop := by
  refine (handles_head hstop (by decide) hop).bind ?_
  rintro us op hus -
  refine (handles_args hstop).bind ?_
  rintro vs r - hr
  exact handles_pure (hr.before hus)

theorem handles_assignment (dest : Ref Span) :
    Handles all stop (assignment dest) ts fun us i => EndsAt ts us i.note.stop := by
  refine handles_get fun behind => ?_
  simp only [Cursor.current_on, Cursor.peek_on]
  split
  · refine (handles_address hstop ‹_›).bind ?_
    rintro us a - ha
    exact handles_pure ha
  · exact handles_call hstop _ _ ‹_›
  · exact handles_application hstop _ _ ‹_›
  · refine (handles_operand hstop).bind ?_
    rintro us o - ho
    exact handles_pure ho

theorem handles_branch {positive : Bool}
    (hkeyword : (ts.headD stop).kind = if positive then .ifTrue else .ifZero) :
    Handles all stop (branch positive) ts fun us i => EndsAt ts us i.note.stop := by
  refine (handles_head hstop (by cases positive <;> decide) hkeyword).bind ?_
  rintro us keyword hus -
  refine (handles_operand hstop).bind ?_
  rintro vs o hvs -
  refine (handles_expect hstop (by decide) _).bind ?_
  rintro ws goto hws -
  refine (handles_label hstop).bind ?_
  rintro xs l - hl
  exact handles_pure (hl.before ((hws.trans hvs).trans hus))

theorem handles_instr : Handles all stop instr ts fun us i => EndsAt ts us i.note.stop := by
  refine handles_get fun behind => ?_
  simp only [Cursor.current_on, Cursor.peek_on]
  split
  · rename_i hhead hpeek
    refine (handles_head hstop (by decide) hhead).bind ?_
    rintro us t hus ⟨rfl, -, -⟩
    refine (handles_head hstop (by decide) hpeek).bind ?_
    rintro vs eq hvs -
    refine (handles_assignment hstop _).mono ?_
    rintro ws i - hi
    exact hi.before (hvs.trans hus)
  · exact handles_application hstop _ _ ‹_›
  · refine (handles_address hstop ‹_›).bind ?_
    rintro us a hus -
    refine (handles_expect hstop (by decide) _).bind ?_
    rintro vs eq hvs -
    refine (handles_operand hstop).bind ?_
    rintro ws o - ho
    exact handles_pure (ho.before (hvs.trans hus))
  · exact handles_call hstop _ _ ‹_›
  · exact handles_branch hstop ‹_›
  · exact handles_branch hstop ‹_›
  · rename_i hhead
    refine (handles_head hstop (by decide) hhead).bind ?_
    rintro us t hus -
    refine (handles_label hstop).bind ?_
    rintro vs l - hl
    exact handles_pure (hl.before hus)
  · rename_i hhead
    refine (handles_head hstop (by decide) hhead).bind ?_
    rintro us t hus ⟨rfl, -, -⟩
    refine handles_get fun behind => ?_
    split
    · exact handles_pure .one
    · refine (handles_operand hstop).bind ?_
      rintro vs o - ho
      exact handles_pure (ho.before hus)
  · exact handles_failHere _

/-! ### Segments -/

theorem handles_datum : Handles all stop datum ts fun us _ => us.length < ts.length := by
  refine handles_current.bind ?_
  rintro _ _ - ⟨rfl, rfl⟩
  split
  · refine (handles_label hstop).bind ?_
    rintro us l - hl
    exact handles_pure hl.shorter
  · rename_i hhead
    refine handles_headInteger hstop hhead ?_
    rintro us t rfl hkind ht
    refine (handles_integer ht hkind).bind ?_
    rintro _ n - ⟨rfl, hread⟩
    exact handles_pure ⟨Nat.lt_succ_self _, hread⟩
  · exact handles_failHere _

/-- The words of a segment end with the line before them, or with some line end further on. -/
theorem handles_data {rounds : Nat} (last : Span) (hlen : ts.length < rounds) :
    Handles all stop (data last rounds) ts fun _ r =>
      r.2 = last ∨ ∃ t ∈ ts ++ [stop], r.2 = t.span := by
  induction rounds generalizing ts last with
  | zero => exact absurd hlen (Nat.not_lt_zero _)
  | succ rounds ih =>
    have hlater {us : List Token} (hus : us <:+ ts) {span : Span} :
        (∃ t ∈ us ++ [stop], span = t.span) → ∃ t ∈ ts ++ [stop], span = t.span :=
      fun ⟨t, ht, hspan⟩ => ⟨t, mem_concat_of_suffix hus ht, hspan⟩
    refine handles_get fun behind => ?_
    rw [Cursor.current_on]
    split
    · exact handles_pure (.inl rfl)
    split
    · rename_i hhead
      refine (handles_head hstop (by decide) hhead).bind ?_
      rintro us t hus ⟨rfl, -, -⟩
      refine (ih last (Nat.lt_of_succ_lt_succ hlen)).mono ?_
      rintro vs r - hr
      exact hr.imp_right (hlater hus)
    · refine (handles_datum hstop).bind ?_
      rintro us d hus hshort
      refine handles_get fun behind => ?_
      dsimp only
      split
      · rw [pure_bind]
        refine (ih last (by omega)).bind ?_
        rintro vs r - hr
        exact handles_pure (hr.imp_right (hlater hus))
      · refine (handles_endOfLine hstop _).bind ?_
        rintro vs t hvs ht
        rw [pure_bind]
        have hlength := hvs.length_le
        refine (ih t.span (by omega)).bind ?_
        rintro ws r - hr
        refine handles_pure (.inr ?_)
        -- without further words the line end just read is the latest one
        rcases hr with hr | hr
        · exact hlater hus ⟨t, ht, hr⟩
        · exact hlater (hvs.trans hus) hr

theorem handles_segment (keyword : Token) :
    Handles all stop (segment keyword) ts fun _ s =>
      ∃ u ∈ ts ++ [stop], s.note = ⟨keyword.span.start, u.span.stop⟩ := by
  refine (handles_expect hstop (by decide) _).bind ?_
  rintro us name hus -
  refine (handles_endOfLine hstop _).bind ?_
  rintro vs header hvs hheader
  refine handles_bound.bind ?_
  rintro _ _ - ⟨rfl, rfl⟩
  refine (handles_data hstop header.span (by omega)).bind ?_
  rintro ws r - hr
  refine handles_pure ?_
  obtain ⟨u, hu, hspan⟩ : ∃ u ∈ us ++ [stop], r.2 = u.span := by
    rcases hr with hr | ⟨u, hu, hr⟩
    · exact ⟨header, hheader, hr⟩
    · exact ⟨u, mem_concat_of_suffix hvs hu, hr⟩
  exact ⟨u, mem_concat_of_suffix hus hu, by rw [← hspan]; rfl⟩

/-! ### Functions -/

theorem handles_params {rounds : Nat} (seen : List String) (hlen : ts.length < rounds) :
    Handles all stop (params seen rounds) ts fun us r => EndsAt ts us r.2.stop := by
  induction rounds generalizing ts seen with
  | zero => exact absurd hlen (Nat.not_lt_zero _)
  | succ rounds ih =>
    refine handles_current.bind ?_
    rintro _ _ - ⟨rfl, rfl⟩
    split
    · rename_i hhead
      refine (handles_head hstop (by decide) hhead).bind ?_
      rintro us t - ⟨rfl, -, -⟩
      exact handles_pure .one
    · refine (handles_expect hstop (by decide) _).bind ?_
      rintro us name hus ⟨rfl, -, hname⟩
      split
      · exact handles_faultAt hname
      · refine (ih _ (Nat.lt_of_succ_lt_succ hlen)).bind ?_
        rintro vs r - hr
        exact handles_pure (hr.before hus)

/-- The lines of a function end with the header, or with a token further on. -/
theorem handles_block {rounds : Nat} (index : Nat) (seen : List String) (last : Span)
    (hlen : ts.length < rounds) :
    Handles all stop (block index seen last rounds) ts fun _ b =>
      b.last = last ∨ ∃ t ∈ ts, b.last.stop = t.span.stop := by
  induction rounds generalizing ts index seen last with
  | zero => exact absurd hlen (Nat.not_lt_zero _)
  | succ rounds ih =>
    have hlater {us : List Token} (hus : us <:+ ts) {p : Pos} :
        (∃ t ∈ us, p = t.span.stop) → ∃ t ∈ ts, p = t.span.stop :=
      fun ⟨t, ht, hp⟩ => ⟨t, hus.subset ht, hp⟩
    refine handles_get fun behind => ?_
    rw [Cursor.current_on, Cursor.peek_on]
    split
    · exact handles_pure (.inl rfl)
    split
    · rename_i hhead
      refine (handles_head hstop (by decide) hhead).bind ?_
      rintro us t hus ⟨rfl, -, -⟩
      refine (ih index seen last (Nat.lt_of_succ_lt_succ hlen)).mono ?_
      rintro vs b - hb
      exact hb.imp_right (hlater hus)
    split
    · rename_i hhead
      refine (handles_head hstop (by decide) hhead.1).bind ?_
      rintro us name hus ⟨rfl, -, hname⟩
      refine (handles_head hstop (by decide) hhead.2).bind ?_
      rintro vs colon hvs ⟨rfl, -, -⟩
      split
      · exact handles_faultAt hname
      · refine (handles_endOfLine hstop _).bind ?_
        rintro ws _ hws -
        have hlength := hws.length_le
        simp only [List.length_cons] at hlen
        refine (ih index _ name.span (by omega)).bind ?_
        rintro xs b - hb
        refine handles_pure (.inr ?_)
        rcases hb with hb | hb
        · exact ⟨name, List.mem_cons_self, congrArg Span.stop hb⟩
        · exact hlater ((hws.trans hvs).trans hus) hb
    · refine (handles_instr hstop).bind ?_
      rintro us i hus hi
      refine (handles_endOfLine hstop _).bind ?_
      rintro vs _ hvs -
      -- the bound holds on, since the instruction has at least one token
      have hlength := hvs.length_le
      have hshort := hi.shorter
      refine (ih (index + 1) seen i.note (by omega)).bind ?_
      rintro ws b - hb
      refine handles_pure (.inr ?_)
      rcases hb with hb | hb
      · obtain ⟨t, ht, hstop⟩ := hi.exists_mem
        exact ⟨t, ht, (congrArg Span.stop hb).trans hstop⟩
      · exact hlater (hvs.trans hus) hb

theorem handles_function (keyword : Token) :
    Handles all stop (function keyword) ts fun _ f =>
      ∃ u ∈ ts ++ [stop], f.note = ⟨keyword.span.start, u.span.stop⟩ := by
  refine (handles_expect hstop (by decide) _).bind ?_
  rintro us name hus -
  refine (handles_expect hstop (by decide) _).bind ?_
  rintro vs opening hvs -
  refine handles_bound.bind ?_
  rintro _ _ - ⟨rfl, rfl⟩
  refine (handles_params hstop [] (by omega)).bind ?_
  rintro ws r hws hclose
  refine (handles_endOfLine hstop _).bind ?_
  rintro xs _ hxs -
  refine handles_bound.bind ?_
  rintro _ _ - ⟨rfl, rfl⟩
  refine (handles_block hstop 0 [] r.2 (by omega)).bind ?_
  rintro ys b - hb
  refine handles_pure ?_
  have hheader := hvs.trans hus
  -- a function without lines ends with the parenthesis behind its parameters
  obtain ⟨u, hu, hspan⟩ : ∃ u ∈ ts, b.last.stop = u.span.stop := by
    rcases hb with hb | ⟨u, hu, hb⟩
    · obtain ⟨u, hu, hclose⟩ := hclose.exists_mem
      exact ⟨u, hheader.subset hu, hb ▸ hclose⟩
    · exact ⟨u, ((hxs.trans hws).trans hheader).subset hu, hb⟩
  exact ⟨u, List.mem_append_left _ hu, by rw [← hspan]; rfl⟩

/-! ### Programs -/

/-- Every item reaches from one of the tokens to a later one, and the last one to the end. -/
theorem handles_items {rounds : Nat} (hlen : ts.length < rounds) :
    Handles all stop (items rounds) ts fun us r =>
      ((∀ s ∈ r.1, Spanned (all ++ [stop]) s.note) ∧
        ∀ f ∈ r.2, Spanned (all ++ [stop]) f.note) ∧ (us.headD stop).kind = .eof := by
  induction rounds generalizing ts with
  | zero => exact absurd hlen (Nat.not_lt_zero _)
  | succ rounds ih =>
    have hsegment {kind : Token.Kind} (hkind : kind ≠ .eof ∧ kind ≠ .integer)
        (hhead : (ts.headD stop).kind = kind) : Handles all stop (do
          let _ ← next
          let segment ← segment (ts.headD stop)
          let r ← items rounds
          return (segment :: r.1, r.2)) ts fun us r =>
        ((∀ s ∈ r.1, Spanned (all ++ [stop]) s.note) ∧
          ∀ f ∈ r.2, Spanned (all ++ [stop]) f.note) ∧ (us.headD stop).kind = .eof := by
      refine handles_of_suffix fun hts => ?_
      refine (handles_head hstop hkind hhead).bind ?_
      rintro us t - ⟨rfl, -, -⟩
      refine (handles_segment hstop t).bind ?_
      rintro vs s hvs ⟨u, hu, hs⟩
      have hlength := hvs.length_le
      simp only [List.length_cons] at hlen
      refine (ih (by omega)).bind ?_
      rintro ws r - ⟨⟨hsegments, hfunctions⟩, hend⟩
      exact handles_pure ⟨⟨List.forall_mem_cons.mpr ⟨hs ▸ spanned_of_suffix hts hu, hsegments⟩,
        hfunctions⟩, hend⟩
    refine handles_current.bind ?_
    rintro ts _ - ⟨rfl, rfl⟩
    split
    · rename_i hhead
      exact handles_pure ⟨⟨nofun, nofun⟩, hhead⟩
    · rename_i hhead
      refine (handles_head hstop (by decide) hhead).bind ?_
      rintro us t - ⟨rfl, -, -⟩
      exact ih (Nat.lt_of_succ_lt_succ hlen)
    · rename_i hhead
      exact hsegment (by decide) hhead
    · rename_i hhead
      exact hsegment (by decide) hhead
    · rename_i hhead
      refine handles_of_suffix fun hts => ?_
      refine (handles_head hstop (by decide) hhead).bind ?_
      rintro us t - ⟨rfl, -, -⟩
      refine (handles_function hstop t).bind ?_
      rintro vs f hvs ⟨u, hu, hf⟩
      have hlength := hvs.length_le
      simp only [List.length_cons] at hlen
      refine (ih (by omega)).bind ?_
      rintro ws r - ⟨⟨hsegments, hfunctions⟩, hend⟩
      exact handles_pure ⟨⟨hsegments,
        List.forall_mem_cons.mpr ⟨hf ▸ spanned_of_suffix hts hu, hfunctions⟩⟩, hend⟩
    · exact handles_failHere _

omit hstop in
theorem mem_of_duplicate?_eq_some {seen : List String} {items : List (String × Span)}
    {item : String × Span} (h : duplicate? seen items = some item) : item ∈ items := by
  induction items generalizing seen with
  | nil => exact nomatch h
  | cons first items ih =>
    unfold duplicate? at h
    split at h
    · obtain rfl := Option.some.inj h
      exact List.mem_cons_self
    · exact List.mem_cons_of_mem _ (ih h)

theorem handles_program :
    Handles all stop program ts fun us _ => (us.headD stop).kind = .eof := by
  refine handles_current.bind ?_
  rintro _ start - ⟨rfl, -⟩
  refine handles_bound.bind ?_
  rintro _ _ - ⟨rfl, rfl⟩
  refine (handles_items hstop (by omega)).bind ?_
  rintro vs ⟨segments, functions⟩ - ⟨⟨hsegments, hfunctions⟩, hend⟩
  dsimp only
  split
  · -- the item with a name that is there already is one of those that have been read
    rename_i name span hsome
    refine handles_fault ?_
    have hitem := mem_of_duplicate?_eq_some hsome
    simp only [List.mem_append, List.mem_map, Prod.mk.injEq] at hitem
    obtain ⟨s, hs, -, rfl⟩ | ⟨f, hf, -, rfl⟩ := hitem
    · exact hsegments s hs
    · exact hfunctions f hf
  · refine handles_current.bind ?_
    rintro _ _ - ⟨rfl, -⟩
    exact handles_pure hend

end Readers

end Parser

/-- **The ways to fail.**  Of tokens that come to an end the reader makes a program, or it
reports a fault that reaches from one of the tokens to a later one, or one of them is an
integer whose text cannot be read. -/
theorem parse_outcome {ts : List Token} {stop : Token} (hstop : stop.kind = .eof) :
    (∃ p, parse (ts ++ [stop]) = .ok p) ∨
      (∃ what span, parse (ts ++ [stop]) = .error (.fault what span) ∧
        Spanned (ts ++ [stop]) span) ∨
      ∃ t ∈ ts, t.kind = .integer ∧ ∃ cause, Text.readInteger t.lexeme = .error cause ∧
        parse (ts ++ [stop]) = .error (.integer cause) := by
  have hout := Parser.handles_program hstop (List.suffix_refl ts) []
  rw [parse_append]
  generalize Parser.program.run (.on stop [] ts) = r at hout
  cases hout with
  | @ok behind us p => exact .inl ⟨p, rfl⟩
  | @fault what span h => exact .inr (.inl ⟨what, span, rfl, h⟩)
  | @integer t cause ht hkind hread => exact .inr (.inr ⟨t, ht, hkind, cause, hread, rfl⟩)

/-- **Nothing is left unread.**  If the reader makes a program of some tokens, then it has come
to the end, and all integers on the way could be read. -/
theorem readable_of_parse {ts : List Token} {stop : Token} {p : Program Span}
    (hstop : stop.kind = .eof) (hinner : ∀ t ∈ ts, t.kind ≠ .eof)
    (h : parse (ts ++ [stop]) = .ok p) : ∀ t ∈ ts, t.Readable := by
  have hout := Parser.handles_program hstop (List.suffix_refl ts) []
  rw [parse_append] at h
  generalize Parser.program.run (.on stop [] ts) = r at hout h
  cases hout with
  | @ok behind us p hus hend =>
    intro t ht
    rcases hus.read t ht with hleft | hread
    · -- the first token left would end the text
      obtain ⟨u, us, rfl⟩ := List.exists_cons_of_ne_nil (List.ne_nil_of_mem hleft)
      exact absurd hend (hinner u (hus.suffix.subset List.mem_cons_self))
    · exact hread
  | fault _ => exact nomatch h
  | integer _ _ _ => exact nomatch h

end Vapor
