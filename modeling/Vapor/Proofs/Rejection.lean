/-
Vapor/Proofs/Rejection.lean

Where a text that is no program is refused.  A text that is not made of tokens, or whose
tokens are no program, is refused with a span, and the span lies in the text: it reaches from
one offset to a later one, and its lines and columns are counted along the text
(`rejection_located`).

There is one exception.  A number may be made of digits that have no decimal value, or of more
digits than can be read; the reader of tokens takes it for an integer, and fails on it without
saying where (`superscript_not_located`).
-/
import Vapor.Proofs.Grammar.Faults
import Vapor.Proofs.Source.Layout
import Vapor.Proofs.Source.Numbers
import Vapor.Proofs.Source.Tiling

namespace Vapor

variable {path : String} {text : List Char}

/-- The span is a part of the text, with positions that are counted along the text. -/
structure Span.Within (path : String) (text : List Char) (span : Span) : Prop where
  start : span.start = .ofOffset path text span.start.offset
  stop : span.stop = .ofOffset path text span.stop.offset
  forward : span.start.offset ≤ span.stop.offset
  inside : span.stop.offset ≤ text.length

/-- The number has a digit without a decimal value, or too many digits. -/
def Token.Unreadable (t : Token) : Prop :=
  t.kind = .integer ∧
    ((∃ c ∈ t.lexeme.toList, Text.isDigit c = true ∧ Text.decimal? c = none) ∨
      Text.maxDigits < (t.lexeme.toList.filter Text.isDigit).length)

/-! ### Tokens -/

/-- What reaches from a token to a later one lies in the text. -/
theorem Covered.within {k : Nat} {out : List Token} {span : Span} (h : Covered path text k out)
    (hspan : Token.Spanned out span) : span.Within path text := by
  obtain ⟨t, us, u, hsuffix, hu, rfl⟩ := hspan
  have ht := h.placed t (hsuffix.subset List.mem_cons_self)
  have hplaced := h.placed u (hsuffix.subset hu)
  refine ⟨ht.start, hplaced.stop, ?_, hplaced.inside⟩
  -- a later token begins behind the end of the first
  rcases List.mem_cons.mp hu with rfl | hlater
  · exact ht.forward
  · have hordered := (List.pairwise_cons.mp (h.ordered.sublist hsuffix.sublist)).1 u hlater
    exact (ht.forward.trans hordered).trans hplaced.forward

/-- An integer of the text that cannot be read is one of the exceptions. -/
theorem Genuine.unreadable {tokens : List Token} {t : Token} {cause : Text.IntegerError}
    (h : Genuine tokens) (ht : t ∈ tokens) (hkind : t.kind = .integer)
    (hread : Text.readInteger t.lexeme = .error cause) : t.Unreadable := by
  refine ⟨hkind, ?_⟩
  obtain ⟨rest, hword⟩ := h.words t ht (by simp [hkind])
  rw [hkind] at hword
  rw [← String.ofList_toList (s := t.lexeme)] at hread
  exact hword.readInteger_eq_error hread

/-! ### Characters -/

/-- The reader of characters refuses a part of a line. -/
theorem lex_error_within {source : String} {e : LexError} (h : lex path source = .error e) :
    e.span.Within path source.toList := by
  obtain ⟨ts, s, n, hrun, hhalts, hspan⟩ := lex_eq_error h
  obtain ⟨k, hs, -⟩ := hrun.tiled
  obtain ⟨c, rest, hrest, hc, hread⟩ := hhalts.at_fault
  -- the characters at fault are on one line, so the column alone goes on
  obtain ⟨w, after, hw, rfl, hline⟩ := Lexeme.read_eq_error hc hread
  obtain ⟨htake, hle⟩ := hs.ahead (hrest.trans hw)
  have hstop : s.pos.right w.length = .ofOffset path source.toList (k + w.length) := by
    rw [hs.pos, Pos.ofOffset, Pos.ofOffset, htake, Pos.right_behind _ _ hline]
  rw [hspan, hstop, hs.pos]
  refine ⟨?_, ?_, ?_, ?_⟩ <;> simp only [Pos.offset_ofOffset hs.le, Pos.offset_ofOffset hle]
  · exact Nat.le_add_right _ _
  · exact hle

/-! ### Texts -/

/-- **Every rejection is located**, unless it is for a number that cannot be read.  A text is
made of tokens, or is refused with a span in it; and if its tokens are no program, then either
the failure has a span in the text, or it comes from an unreadable number. -/
theorem rejection_located (path source : String) :
    (∃ e, lex path source = .error e ∧ e.span.Within path source.toList) ∨
      ∃ tokens, lex path source = .ok tokens ∧ ∀ e, parse tokens = .error e →
        (∃ span, e.span? = some span ∧ span.Within path source.toList) ∨
          ∃ cause, e = .integer cause ∧
            ∃ t ∈ tokens, t.Unreadable ∧ Text.readInteger t.lexeme = .error cause := by
  rcases hlex : lex path source with e | tokens
  · exact .inl ⟨e, rfl, lex_error_within hlex⟩
  refine .inr ⟨tokens, rfl, fun e he => ?_⟩
  obtain ⟨body, rfl, -, hcovered, -⟩ := lex_tiled hlex
  have hstop : (eofToken path source.toList).kind = .eof := rfl
  rcases parse_outcome hstop with ⟨p, hok⟩ | ⟨what, span, hfault, hspan⟩ | hinteger
  · exact nomatch hok.symm.trans he
  · obtain rfl := Except.error.inj (hfault.symm.trans he)
    exact .inl ⟨span, rfl, hcovered.within hspan⟩
  · obtain ⟨t, ht, hkind, cause, hread, hinteger⟩ := hinteger
    obtain rfl := Except.error.inj (hinteger.symm.trans he)
    have ht' := List.mem_append_left [eofToken path source.toList] ht
    exact .inr ⟨cause, rfl, t, ht', (lex_genuine hlex).unreadable ht' hkind hread, hread⟩

/-- A superscript is a digit and has no decimal value.  Where it stands for a word of a
segment, the text is refused, and nobody is told where. -/
theorem superscript_not_located : ∃ tokens e, lex "<memory>" "const a\n²" = .ok tokens ∧
    parse tokens = .error e ∧ e = .integer (.malformed "²") ∧ e.span? = none := by
  have hread : (lex "<memory>" "const a\n²").toOption.map parse =
      some (.error (.integer (.malformed "²"))) := by decide +kernel
  rcases hlex : lex "<memory>" "const a\n²" with e | tokens
  · rw [hlex] at hread
    exact nomatch hread
  · rw [hlex] at hread
    exact ⟨tokens, _, rfl, Option.some.inj hread, rfl, rfl⟩

end Vapor
