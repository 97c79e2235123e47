/-
Vapor/Proofs/Grammar/Visits.lean

Reading comes to an end and never goes past the end of the text (`parse_ends`).  Tokens may
stand before the first one that ends the text and behind it, and they may be any tokens.  The
reader makes a program of them, reports a fault or comes to an integer that cannot be read; its
loops never run into their bounds.  And what comes of it does not depend on the tokens behind
the end.

Where a reader has been can be told only from the way it is put together, since a failure
leaves no cursor behind.  `Visits` lists the cursors that a reader goes through.  The only way
to a new cursor is to read a token, so an invariant of `Cursor.advance` holds of all of them
(`Visits.invariant`), and that every reader has such a list is shown along its definition
(`Traced`).
-/
import Vapor.Proofs.Grammar.Abreast
import Vapor.Proofs.Grammar.Faults

namespace Vapor

namespace Parser

variable {β γ : Type}

/-! ### Where a reader has been -/

/-- From a cursor the reader goes through the cursors in the list, one token at a time, and
comes to an outcome. -/
inductive Visits : {β : Type} → Parser β → Cursor → List Cursor →
    Except ParseError (β × Cursor) → Prop where
  | pure {β : Type} (b : β) (s : Cursor) : Visits (pure b) s [] (.ok (b, s))
  | throw {β : Type} (e : ParseError) (s : Cursor) : Visits (throw e : Parser β) s [] (.error e)
  | get (s : Cursor) : Visits get s [] (.ok (s, s))
  | next (s : Cursor) : Visits next s [s.advance] (.ok (s.current, s.advance))
  /-- A reader that fails is not followed by anything. -/
  | fail {β γ : Type} {x : Parser β} {f : β → Parser γ} {s : Cursor} {visited : List Cursor}
      {e : ParseError} (hx : Visits x s visited (.error e)) :
      Visits (x >>= f) s visited (.error e)
  | bind {β γ : Type} {x : Parser β} {f : β → Parser γ} {s s' : Cursor}
      {visited visited' : List Cursor} {b : β} {r : Except ParseError (γ × Cursor)}
      (hx : Visits x s visited (.ok (b, s'))) (hf : Visits (f b) s' visited' r) :
      Visits (x >>= f) s (visited ++ visited') r

/-- The outcome is what comes of the reader. -/
theorem Visits.run_eq {x : Parser β} {s : Cursor} {visited : List Cursor}
    {r : Except ParseError (β × Cursor)} (h : Visits x s visited r) : x.run s = r := by
  induction h with
  | pure | throw | get | next => rfl
  | fail _ ih =>
    rw [StateT.run_bind, ih]
    rfl
  | bind _ _ ihx ihf =>
    rw [StateT.run_bind, ihx]
    exact ihf

/-- **What reading a token preserves holds wherever the reader has been.** -/
theorem Visits.invariant {P : Cursor → Prop} (hstep : ∀ s, P s → P s.advance) {x : Parser β}
    {s : Cursor} {visited : List Cursor} {r : Except ParseError (β × Cursor)}
    (h : Visits x s visited r) (hs : P s) :
    (∀ c ∈ visited, P c) ∧ ∀ b s', r = .ok (b, s') → P s' := by
  induction h with
  | pure b s | get s =>
    refine ⟨fun c hc => absurd hc List.not_mem_nil, fun b' s' heq => ?_⟩
    obtain ⟨-, rfl⟩ := Prod.mk.inj (Except.ok.inj heq)
    exact hs
  | throw => exact ⟨fun c hc => absurd hc List.not_mem_nil, fun b' s' heq => by cases heq⟩
  | next s =>
    refine ⟨fun c hc => List.mem_singleton.mp hc ▸ hstep s hs, fun b' s' heq => ?_⟩
    obtain ⟨-, rfl⟩ := Prod.mk.inj (Except.ok.inj heq)
    exact hstep s hs
  | fail _ ih => exact ⟨(ih hs).1, fun b' s' heq => by cases heq⟩
  | bind _ _ ihx ihf =>
    obtain ⟨hvisited, hend⟩ := ihx hs
    obtain ⟨hvisited', hend'⟩ := ihf (hend _ _ rfl)
    refine ⟨fun c hc => ?_, hend'⟩
    rcases List.mem_append.mp hc with hc | hc
    · exact hvisited c hc
    · exact hvisited' c hc

/-- Wherever the reader starts, it can be told where it goes. -/
def Traced (x : Parser β) : Prop :=
  ∀ s, ∃ visited, Visits x s visited (x.run s)

theorem traced_pure (b : β) : Traced (pure b) :=
  fun s => ⟨[], .pure b s⟩

theorem traced_throw (e : ParseError) : Traced (throw e : Parser β) :=
  fun s => ⟨[], .throw e s⟩

theorem traced_get : Traced get :=
  fun s => ⟨[], .get s⟩

theorem traced_next : Traced next :=
  fun s => ⟨[s.advance], .next s⟩

theorem Traced.bind {x : Parser β} {f : β → Parser γ} (hx : Traced x) (hf : ∀ b, Traced (f b)) :
    Traced (x >>= f) := by
  intro s
  obtain ⟨visited, h⟩ := hx s
  rw [StateT.run_bind]
  rcases hrun : x.run s with e | ⟨b, s'⟩
  · rw [hrun] at h
    exact ⟨visited, .fail h⟩
  · rw [hrun] at h
    obtain ⟨visited', h'⟩ := hf b s'
    exact ⟨visited ++ visited', .bind h h'⟩

theorem Traced.ite {c : Prop} [Decidable c] {x y : Parser β} (hx : Traced x) (hy : Traced y) :
    Traced (if c then x else y) := by
  split
  · exact hx
  · exact hy

/-! ### Readers -/

theorem traced_current : Traced current :=
  traced_get.bind fun _ => traced_pure _

theorem traced_failHere (fault : ParseFault) : Traced (failHere fault : Parser β) :=
  traced_current.bind fun _ => traced_throw _

theorem traced_expect (kind : Token.Kind) (fault : ParseFault) : Traced (expect kind fault) :=
  traced_current.bind fun _ => .ite traced_next (traced_failHere fault)

theorem traced_endOfLine (fault : ParseFault) : Traced (endOfLine fault) :=
  traced_get.bind fun _ => .ite traced_current (traced_expect _ fault)

theorem traced_bound : Traced bound :=
  traced_get.bind fun _ => traced_pure _

theorem traced_integer (t : Token) : Traced (integer t) := by
  unfold integer
  split
  · exact traced_pure _
  · exact traced_throw _

theorem traced_label : Traced label :=
  (traced_expect _ _).bind fun _ => (traced_expect _ _).bind fun _ => traced_pure _

theorem traced_operand : Traced operand := by
  refine traced_current.bind fun t => ?_
  split
  · exact traced_next.bind fun _ => traced_pure _
  · exact traced_next.bind fun _ => (traced_integer t).bind fun _ => traced_pure _
  · exact traced_next.bind fun _ => traced_pure _
  · exact traced_label.bind fun _ => traced_pure _
  · exact traced_failHere _

theorem traced_operands (rounds : Nat) : Traced (operands rounds) := by
  induction rounds with
  | zero => exact traced_throw _
  | succ rounds ih =>
    refine traced_current.bind fun t => ?_
    split
    · exact traced_next.bind fun _ => traced_pure _
    · exact traced_failHere _
    · exact traced_failHere _
    · exact traced_operand.bind fun _ => ih.bind fun _ => traced_pure _

theorem traced_args : Traced args :=
  (traced_expect _ _).bind fun _ => traced_bound.bind traced_operands

theorem traced_offset : Traced offset := by
  refine traced_current.bind fun t => .ite ?_ (.ite ?_ (traced_pure 0))
  · exact traced_next.bind fun _ => (traced_expect _ _).bind traced_integer
  · exact traced_next.bind fun _ => traced_integer t

theorem traced_address : Traced address :=
  traced_next.bind fun _ => (traced_expect _ _).bind fun _ => traced_offset.bind fun _ =>
    (traced_expect _ _).bind fun _ => traced_pure _

theorem traced_call (dest : Option (Ref Span)) (start : Span) : Traced (call dest start) := by
  have hrest (callee : Callee Span) : Traced (do
      let r ← args
      return Instr.call dest callee r.1 (start.join r.2)) :=
    traced_args.bind fun _ => traced_pure _
  refine traced_next.bind fun _ => traced_current.bind fun t => .ite ?_ ?_
  · exact traced_label.bind fun _ => (traced_pure _).bind hrest
  · exact (traced_expect _ _).bind fun _ => (traced_pure _).bind hrest

theorem traced_application (dest : Option (Ref Span)) (start : Span) :
    Traced (application dest start) :=
  traced_next.bind fun _ => traced_args.bind fun _ => traced_pure _

theorem traced_assignment (dest : Ref Span) : Traced (assignment dest) := by
  refine traced_get.bind fun s => ?_
  split
  · exact traced_address.bind fun _ => traced_pure _
  · exact traced_call _ _
  · exact traced_application _ _
  · exact traced_operand.bind fun _ => traced_pure _

theorem traced_branch (positive : Bool) : Traced (branch positive) :=
  traced_next.bind fun _ => traced_operand.bind fun _ => (traced_expect _ _).bind fun _ =>
    traced_label.bind fun _ => traced_pure _

theorem traced_instr : Traced instr := by
  refine traced_get.bind fun s => ?_
  dsimp only
  split
  · exact traced_next.bind fun _ => traced_next.bind fun _ => traced_assignment _
  · exact traced_application _ _
  · exact traced_address.bind fun _ => (traced_expect _ _).bind fun _ =>
      traced_operand.bind fun _ => traced_pure _
  · exact traced_call _ _
  · exact traced_branch _
  · exact traced_branch _
  · exact traced_next.bind fun _ => traced_label.bind fun _ => traced_pure _
  · refine traced_next.bind fun _ => traced_get.bind fun _ => .ite (traced_pure _) ?_
    exact traced_operand.bind fun _ => traced_pure _
  · exact traced_failHere _

theorem traced_datum : Traced datum := by
  refine traced_current.bind fun t => ?_
  split
  · exact traced_label.bind fun _ => traced_pure _
  · exact traced_next.bind fun _ => (traced_integer t).bind fun _ => traced_pure _
  · exact traced_failHere _

theorem traced_data (last : Span) (rounds : Nat) : Traced (data last rounds) := by
  induction rounds generalizing last with
  | zero => exact traced_throw _
  | succ rounds ih =>
    refine traced_get.bind fun s => .ite (traced_pure _) (.ite ?_ ?_)
    · exact traced_next.bind fun _ => ih last
    · have hrest (value : Datum Span) (last' : Span) : Traced (do
          let r ← data last' rounds
          return (value :: r.1, r.2)) :=
        (ih last').bind fun _ => traced_pure _
      refine traced_datum.bind fun value => traced_get.bind fun _ => .ite ?_ ?_
      · exact (traced_pure last).bind (hrest value)
      · exact (traced_endOfLine _).bind fun _ => (traced_pure _).bind (hrest value)

theorem traced_segment (keyword : Token) : Traced (segment keyword) :=
  (traced_expect _ _).bind fun _ => (traced_endOfLine _).bind fun _ => traced_bound.bind fun _ =>
    (traced_data _ _).bind fun _ => traced_pure _

theorem traced_params (seen : List String) (rounds : Nat) : Traced (params seen rounds) := by
  induction rounds generalizing seen with
  | zero => exact traced_throw _
  | succ rounds ih =>
    refine traced_current.bind fun t => .ite ?_ ?_
    · exact traced_next.bind fun _ => traced_pure _
    · refine (traced_expect _ _).bind fun name => .ite ?_ ?_
      · exact (traced_throw _).bind fun _ => (ih _).bind fun _ => traced_pure _
      · exact (ih _).bind fun _ => traced_pure _

theorem traced_block (index : Nat) (seen : List String) (last : Span) (rounds : Nat) :
    Traced (block index seen last rounds) := by
  induction rounds generalizing index seen last with
  | zero => exact traced_throw _
  | succ rounds ih =>
    refine traced_get.bind fun s => .ite (traced_pure _) (.ite ?_ (.ite ?_ ?_))
    · exact traced_next.bind fun _ => ih _ _ _
    · have hrest (name : Token) : Traced (do
          let _ ← endOfLine .noLabelLineEnd
          let rest ← block index (name.lexeme :: seen) name.span rounds
          return { rest with labels := ⟨name.lexeme, index, name.span⟩ :: rest.labels }) :=
        (traced_endOfLine _).bind fun _ => (ih _ _ _).bind fun _ => traced_pure _
      refine traced_next.bind fun name => traced_next.bind fun _ => .ite ?_ (hrest name)
      exact (traced_throw _).bind fun _ => hrest name
    · exact traced_instr.bind fun _ => (traced_endOfLine _).bind fun _ =>
        (ih _ _ _).bind fun _ => traced_pure _

theorem traced_function (keyword : Token) : Traced (function keyword) :=
  (traced_expect _ _).bind fun _ => (traced_expect _ _).bind fun _ => traced_bound.bind fun _ =>
    (traced_params _ _).bind fun _ => (traced_endOfLine _).bind fun _ => traced_bound.bind fun _ =>
      (traced_block _ _ _ _).bind fun _ => traced_pure _

theorem traced_items (rounds : Nat) : Traced (items rounds) := by
  induction rounds with
  | zero => exact traced_throw _
  | succ rounds ih =>
    refine traced_current.bind fun t => ?_
    split
    · exact traced_pure _
    · exact traced_next.bind fun _ => ih
    · exact traced_next.bind fun _ => (traced_segment t).bind fun _ => ih.bind fun _ =>
        traced_pure _
    · exact traced_next.bind fun _ => (traced_segment t).bind fun _ => ih.bind fun _ =>
        traced_pure _
    · exact traced_next.bind fun _ => (traced_function t).bind fun _ => ih.bind fun _ =>
        traced_pure _
    · exact traced_failHere _

/-- **The reader of programs moves token by token.** -/
theorem traced_program : Traced program := by
  refine traced_current.bind fun _ => traced_bound.bind fun rounds =>
    (traced_items rounds).bind fun r => ?_
  dsimp only
  split
  · exact traced_throw _
  · exact traced_current.bind fun _ => traced_pure _

end Parser

/-! ### Never past the end -/

/-- A place in these tokens, with at most so many of them behind it. -/
structure Cursor.UpTo (tokens : List Token) (n : Nat) (s : Cursor) : Prop where
  tokens : s.behind.reverse ++ s.current :: s.ahead = tokens
  index : s.index ≤ n

namespace Cursor.UpTo

variable {tokens : List Token} {n : Nat} {s : Cursor}

theorem current (h : s.UpTo tokens n) : tokens[s.index]? = some s.current := by
  rw [← h.tokens, Cursor.index, ← List.length_reverse, List.getElem?_append_right (Nat.le_refl _),
    Nat.sub_self, List.getElem?_cons_zero]

/-- Where a token ends the text, reading stands still. -/
theorem advance (h : s.UpTo tokens n) (hend : ∃ t, tokens[n]? = some t ∧ t.kind = .eof) :
    s.advance.UpTo tokens n := by
  unfold Cursor.advance
  split
  · exact h
  rename_i hnot
  obtain ⟨t, ht, hkind⟩ := hend
  have hne : s.index ≠ n := by
    intro heq
    have hcurrent := h.current
    rw [heq, ht] at hcurrent
    obtain rfl := Option.some.inj hcurrent
    exact hnot (beq_iff_eq.mpr hkind)
  have hlt : s.index < n := Nat.lt_of_le_of_ne h.index hne
  have htokens := h.tokens
  split
  · -- the token that ends the text is still ahead
    rename_i hahead
    have hlength := congrArg List.length htokens
    have hn := (List.getElem?_eq_some_iff.mp ht).1
    simp only [hahead, List.length_append, List.length_reverse, List.length_cons,
      List.length_nil, Cursor.index] at hlength hlt
    omega
  · rename_i u us hahead
    refine ⟨?_, hlt⟩
    rw [hahead] at htokens
    simpa using htokens

end Cursor.UpTo

theorem Cursor.upTo_of_ofTokens? {tokens : List Token} {s : Cursor}
    (h : ofTokens? tokens = some s) (n : Nat) : s.UpTo tokens n := by
  cases tokens with
  | nil => cases h
  | cons t ts =>
    obtain rfl := Option.some.inj h
    exact ⟨rfl, Nat.zero_le n⟩

/-! ### The first token that ends the text -/

namespace Token

variable {tokens ts : List Token} {stop : Token}

theorem exists_first_end (h : ∃ t ∈ tokens, t.kind = .eof) :
    ∃ ts stop rest, tokens = ts ++ stop :: rest ∧ (∀ t ∈ ts, t.kind ≠ .eof) ∧
      stop.kind = .eof := by
  obtain ⟨t, ht, hkind⟩ := h
  have hsome : (tokens.find? fun t => t.kind == .eof).isSome = true :=
    List.find?_isSome.mpr ⟨t, ht, beq_iff_eq.mpr hkind⟩
  obtain ⟨stop, hfind⟩ := Option.isSome_iff_exists.mp hsome
  obtain ⟨hstop, ts, rest, heq, hts⟩ := List.find?_eq_some_iff_append.mp hfind
  refine ⟨ts, stop, rest, heq, fun t ht hkind => ?_, beq_iff_eq.mp hstop⟩
  have hnot := hts t ht
  rw [beq_iff_eq.mpr hkind] at hnot
  cases hnot

theorem findIdx_first_end (rest : List Token) (hts : ∀ t ∈ ts, t.kind ≠ .eof)
    (hstop : stop.kind = .eof) :
    (ts ++ stop :: rest).findIdx (fun t => t.kind == .eof) = ts.length := by
  have hnone : ts.findIdx (fun t => t.kind == .eof) = ts.length :=
    List.findIdx_eq_length.mpr fun t ht => beq_eq_false_iff_ne.mpr (hts t ht)
  rw [List.findIdx_append, hnone, if_neg (Nat.lt_irrefl _), List.findIdx_cons,
    beq_iff_eq.mpr hstop, cond_true, Nat.zero_add]

/-- Whatever may follow the end. -/
theorem abreast_first_end (rest rest' : List Token) (hts : ∀ t ∈ ts, t.kind ≠ .eof)
    (hstop : stop.kind = .eof) :
    Abreast id ts.length (ts ++ stop :: rest) (ts ++ stop :: rest') := by
  induction ts with
  | nil => exact .stop hstop
  | cons t ts ih =>
    obtain ⟨ht, hts⟩ := List.forall_mem_cons.mp hts
    exact .more ht (ih hts)

end Token

/-- The outcome on one of two lists abreast is determined by that on the other. -/
theorem parse_eq_of_abreast {f : Span → Span} (hf : ∀ a b, f (a.join b) = (f a).join (f b))
    {n : Nat} {ts ts' : List Token} (h : Token.Abreast f n ts ts') :
    parse ts' = ((parse ts).map (Program.map f)).mapError (ParseError.map f) := by
  rcases parse_abreast hf h with ⟨p, hp, hp'⟩ | ⟨e, -, he, he'⟩
  · rw [hp, hp']
    rfl
  · rw [he, he']
    rfl

/-- What comes behind the end does not matter. -/
theorem parse_behind {ts : List Token} {stop : Token} (rest rest' : List Token)
    (hts : ∀ t ∈ ts, t.kind ≠ .eof) (hstop : stop.kind = .eof) :
    parse (ts ++ stop :: rest') = parse (ts ++ stop :: rest) :=
  (parse_eq_of_abreast (fun _ _ => rfl) (Token.abreast_first_end rest rest' hts hstop)).trans
    (parse_eq_of_abreast (fun _ _ => rfl) (Token.abreast_first_end rest rest hts hstop)).symm

/-- **Reading comes to an end, and never goes past the end of the text.**  Let one of the
tokens end the text, and let `n` tokens stand before the first that does.  Then the reader makes
a program, reports a fault or comes to an integer that cannot be read.  It moves token by token,
and at no time has it read more than `n` of them.  And what comes of it is the same if all
tokens behind the first that ends the text are left out. -/
theorem parse_ends {tokens : List Token} (h : ∃ t ∈ tokens, t.kind = .eof) {n : Nat}
    (hn : n = tokens.findIdx fun t => t.kind == .eof) :
    ((∃ p, parse tokens = .ok p) ∨ (∃ what span, parse tokens = .error (.fault what span)) ∨
        ∃ cause, parse tokens = .error (.integer cause)) ∧
      (∃ start visited, Cursor.ofTokens? tokens = some start ∧
        Parser.Visits Parser.program start visited (Parser.program.run start)) ∧
      (∀ start visited r, Cursor.ofTokens? tokens = some start →
        Parser.Visits Parser.program start visited r →
        r = Parser.program.run start ∧ start.index ≤ n ∧ ∀ s ∈ visited, s.index ≤ n) ∧
      parse (tokens.take (n + 1)) = parse tokens := by
  obtain ⟨ts, stop, rest, rfl, hts, hstop⟩ := Token.exists_first_end h
  rw [Token.findIdx_first_end rest hts hstop] at hn
  subst hn
  have hcut : (ts ++ stop :: rest).take (ts.length + 1) = ts ++ [stop] := by
    rw [List.append_cons]
    exact List.take_left' (by simp)
  have hbehind := parse_behind rest [] hts hstop
  refine ⟨?_, ?_, fun start visited r hstart hvisits => ?_, by rw [hcut, hbehind]⟩
  · rw [← hbehind]
    rcases parse_outcome hstop with hok | ⟨what, span, hfault, -⟩ | ⟨-, -, -, cause, -, hinteger⟩
    · exact .inl hok
    · exact .inr (.inl ⟨what, span, hfault⟩)
    · exact .inr (.inr ⟨cause, hinteger⟩)
  · obtain ⟨t, us, hcons⟩ := List.exists_cons_of_ne_nil (l := ts ++ stop :: rest) (by simp)
    obtain ⟨visited, hvisits⟩ := Parser.traced_program ⟨[], t, us⟩
    exact ⟨⟨[], t, us⟩, visited, by rw [hcons]; rfl, hvisits⟩
  · have hend : ∃ t, (ts ++ stop :: rest)[ts.length]? = some t ∧ t.kind = .eof :=
      ⟨stop, by simp, hstop⟩
    have hupTo := Cursor.upTo_of_ofTokens? hstart ts.length
    refine ⟨hvisits.run_eq.symm, hupTo.index, fun s hs => ?_⟩
    exact ((hvisits.invariant (fun _ hs => hs.advance hend) hupTo).1 s hs).index

/-- The tokens of a program, and more behind the end. -/
def Sample.overlong : List Token :=
  Sample.tokens ++ [Sample.token .func "func", Sample.token .eof "", Sample.newline]

theorem parse_ends_sample :
    parse (Sample.overlong.take 51) = parse Sample.overlong ∧
      (∃ start visited, Cursor.ofTokens? Sample.overlong = some start ∧
        Parser.Visits Parser.program start visited (Parser.program.run start) ∧
        ∀ s ∈ visited, s.index ≤ 50) := by
  have hend : ∃ t ∈ Sample.overlong, t.kind = .eof :=
    ⟨Sample.token .eof "", by decide, rfl⟩
  obtain ⟨-, ⟨start, visited, hstart, hvisits⟩, hindex, hcut⟩ := parse_ends hend (n := 50) (by decide)
  exact ⟨hcut, start, visited, hstart, hvisits, (hindex start visited _ hstart hvisits).2.2⟩

end Vapor
