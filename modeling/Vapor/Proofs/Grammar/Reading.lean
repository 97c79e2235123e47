/-
Vapor/Proofs/Grammar/Reading.lean

Readers as readers of lists of tokens.  On a list that ends with the token for the end of
the text, a cursor is given by the tokens that lie ahead of it (`Cursor.on`); those behind
it do not matter.

There are two ways to speak of a reader.  `Meets` says what it can do: it either succeeds,
and then what it returns and the tokens that remain have some property, or it fails at a
token.  `Reads` says what it does do on a certain list.  Either has one rule for each way
in which readers are put together, so that a reader is gone through from its first token
to its last.
-/
import Vapor.Proofs.Grammar.Basic
import Vapor.Proofs.Parsed

namespace Vapor

/-- The cursor on some tokens, with the end of the text behind them. -/
def Cursor.on (stop : Token) (behind : List Token) : List Token → Cursor
  | [] => ⟨behind, stop, []⟩
  | t :: ts => ⟨behind, t, ts ++ [stop]⟩

/-- If the token is an integer then its text can be read. -/
def Token.Readable (t : Token) : Prop :=
  t.kind = .integer → ∃ n, Text.readInteger t.lexeme = .ok n

/-- The token does not end the text, and if it is an integer then its text can be read. -/
structure Token.Proper (t : Token) : Prop where
  inner : t.kind ≠ .eof
  readable : t.kind = .integer → ∃ n, Text.readInteger t.lexeme = .ok n

theorem Token.proper_iff {t : Token} :
    t.Proper ↔ t.kind ≠ .eof ∧ (t.kind = .integer → (Text.readInteger t.lexeme).isOk = true) := by
  have hok : (Text.readInteger t.lexeme).isOk = true ↔ ∃ n, Text.readInteger t.lexeme = .ok n := by
    cases Text.readInteger t.lexeme <;> simp [Except.isOk, Except.toBool]
  rw [hok]
  exact ⟨fun h => ⟨h.inner, h.readable⟩, fun h => ⟨h.1, h.2⟩⟩

instance (t : Token) : Decidable t.Proper :=
  decidable_of_iff _ Token.proper_iff.symm

/-- What remains is a part of the tokens at their end, and not all of them. -/
structure Token.Later (ts us : List Token) : Prop where
  suffix : us <:+ ts
  shorter : us.length < ts.length

/-- A new item begins with the tokens, or there are none. -/
def Token.AtItem (ts : List Token) : Prop :=
  ∀ t ∈ ts.head?, t.kind.opensItem = true

namespace Token.Later

variable {ts us vs : List Token} {t : Token}

theorem cons : Later (t :: ts) ts :=
  ⟨List.suffix_cons t ts, Nat.lt_succ_self _⟩

theorem trans (h : Later ts us) (h' : vs <:+ us) : Later ts vs :=
  ⟨h'.trans h.suffix, Nat.lt_of_le_of_lt h'.length_le h.shorter⟩

theorem proper (h : us <:+ ts) (hts : ∀ t ∈ ts, t.Proper) : ∀ t ∈ us, t.Proper :=
  fun t ht => hts t (h.subset ht)

end Token.Later

namespace Cursor

variable {stop : Token} {behind ts : List Token} {t : Token}

theorem ofTokens?_append (ts : List Token) (stop : Token) :
    ofTokens? (ts ++ [stop]) = some (on stop [] ts) := by
  cases ts <;> rfl

/-- The cursor tells what lies ahead. -/
theorem on_inj {behind' us : List Token} (h : on stop behind ts = on stop behind' us) :
    ts = us := by
  cases ts <;> cases us <;> simp_all [on]

@[simp] theorem current_on : (on stop behind ts).current = ts.headD stop := by
  cases ts <;> rfl

@[simp] theorem peek_on : (on stop behind ts).peek 1 = ts.tail.headD stop := by
  rcases ts with - | ⟨t, - | ⟨u, us⟩⟩ <;> rfl

@[simp] theorem length_ahead_on : (on stop behind ts).ahead.length = ts.length := by
  cases ts <;> simp [on]

theorem advance_on (ht : t.kind ≠ .eof) :
    (on stop behind (t :: ts)).advance = on stop (t :: behind) ts := by
  have hend : (on stop behind (t :: ts)).atEnd = false := beq_eq_false_iff_ne.mpr ht
  unfold advance
  rw [hend]
  cases ts <;> rfl

theorem atEnd_on (hstop : stop.kind = .eof) (hts : ∀ t ∈ ts, t.Proper) :
    (on stop behind ts).atEnd = ts.isEmpty := by
  cases ts with
  | nil => exact beq_iff_eq.mpr hstop
  | cons t us => exact beq_eq_false_iff_ne.mpr (hts t List.mem_cons_self).inner

theorem atItem_on (hstop : stop.kind = .eof) (h : Token.AtItem ts) :
    (on stop behind ts).atItem = true := by
  cases ts with
  | nil => simp [atItem, atEnd, hstop]
  | cons t us => simp [atItem, h t rfl]

/-- A token of this kind stands inside an item. -/
theorem not_atItem_on {kind : Token.Kind} (h : (ts.headD stop).kind = kind)
    (hkind : ¬(kind == .eof || kind.opensItem) = true) :
    ¬(on stop behind ts).atItem = true := by
  rwa [atItem, atEnd, current_on, h]

theorem atItem_of_atItem_on (hstop : stop.kind = .eof) (hts : ∀ t ∈ ts, t.Proper)
    (h : (on stop behind ts).atItem = true) : Token.AtItem ts := by
  rw [atItem, atEnd_on hstop hts, current_on] at h
  cases ts with
  | nil => exact nofun
  | cons t us => simpa [Token.AtItem] using h

end Cursor

theorem parse_append {ts : List Token} {stop : Token} :
    parse (ts ++ [stop]) = (Parser.program.run (.on stop [] ts)).map Prod.fst := by
  rw [parse, Cursor.ofTokens?_append]

namespace Parser

variable {β γ : Type} {stop : Token} {ts us vs : List Token} {t : Token}

/-! ### What a reader can do -/

/-- On these tokens the reader succeeds with something that has the property, or fails at
a token. -/
def Meets (stop : Token) (x : Parser β) (ts : List Token) (Q : List Token → β → Prop) : Prop :=
  ∀ behind, (∃ behind' us b, x.run (.on stop behind ts) = .ok (b, .on stop behind' us) ∧ Q us b) ∨
    ∃ what span, x.run (.on stop behind ts) = .error (.fault what span)

section Meets

variable {Q : List Token → β → Prop} {R : List Token → γ → Prop}

theorem meets_pure {b : β} (h : Q ts b) : Meets stop (pure b) ts Q :=
  fun behind => .inl ⟨behind, ts, b, rfl, h⟩

theorem meets_fault (what : ParseFault) (span : Span) :
    Meets stop (throw (.fault what span) : Parser β) ts Q :=
  fun _ => .inr ⟨what, span, rfl⟩

theorem Meets.bind {x : Parser β} {f : β → Parser γ} (hx : Meets stop x ts Q)
    (hf : ∀ us b, Q us b → Meets stop (f b) us R) : Meets stop (x >>= f) ts R := by
  intro behind
  rcases hx behind with ⟨behind', us, b, hrun, hQ⟩ | ⟨what, span, hrun⟩
  · rw [StateT.run_bind, hrun]
    exact hf us b hQ behind'
  · refine .inr ⟨what, span, ?_⟩
    rw [StateT.run_bind, hrun]
    rfl

theorem Meets.mono {Q' : List Token → β → Prop} {x : Parser β} (hx : Meets stop x ts Q)
    (h : ∀ us b, Q us b → Q' us b) : Meets stop x ts Q' := by
  intro behind
  rcases hx behind with ⟨behind', us, b, hrun, hQ⟩ | hfault
  · exact .inl ⟨behind', us, b, hrun, h us b hQ⟩
  · exact .inr hfault

/-- What a reader guarantees anyway may be added. -/
theorem Meets.and {P : β → Prop} {x : Parser β} (hx : Meets stop x ts Q) (h : Ensures x P) :
    Meets stop x ts fun us b => Q us b ∧ P b := by
  intro behind
  rcases hx behind with ⟨behind', us, b, hrun, hQ⟩ | hfault
  · exact .inl ⟨behind', us, b, hrun, hQ, h _ _ _ hrun⟩
  · exact .inr hfault

theorem meets_get {f : Cursor → Parser γ}
    (h : ∀ behind, Meets stop (f (.on stop behind ts)) ts R) : Meets stop (get >>= f) ts R :=
  fun behind => h behind behind

theorem meets_current : Meets stop current ts fun us t => us = ts ∧ t = ts.headD stop :=
  fun behind => .inl ⟨behind, ts, _, rfl, rfl, Cursor.current_on⟩

theorem meets_failHere (what : ParseFault) : Meets stop (failHere what : Parser β) ts Q :=
  meets_current.bind fun _ _ _ => meets_fault _ _

theorem meets_bound : Meets stop bound ts fun us n => us = ts ∧ n = ts.length + 2 :=
  fun behind => .inl ⟨behind, ts, _, rfl, rfl, congrArg (· + 2) Cursor.length_ahead_on⟩

/-- Where it is known of what kind the token at hand is. -/
theorem meets_head {kind : Token.Kind} (hstop : stop.kind = .eof) (hkind : kind ≠ .eof)
    (h : (ts.headD stop).kind = kind) :
    Meets stop next ts fun us t => ts = t :: us ∧ t.kind = kind := by
  cases ts with
  | nil => exact absurd (h.symm.trans hstop) hkind
  | cons t us =>
    have ht : t.kind ≠ .eof := fun ht => hkind (h.symm.trans ht)
    refine fun behind => .inl ⟨t :: behind, us, t, ?_, rfl, h⟩
    show Except.ok (t, (Cursor.on stop behind (t :: us)).advance) = _
    rw [Cursor.advance_on ht]

theorem meets_expect (hstop : stop.kind = .eof) {kind : Token.Kind} (hkind : kind ≠ .eof)
    (what : ParseFault) :
    Meets stop (expect kind what) ts fun us t => ts = t :: us ∧ t.kind = kind := by
  refine meets_current.bind ?_
  rintro _ _ ⟨rfl, rfl⟩
  split
  · exact meets_head hstop hkind ‹_›
  · exact meets_failHere what

theorem meets_endOfLine (hstop : stop.kind = .eof) (hts : ∀ t ∈ ts, t.Proper)
    (what : ParseFault) :
    Meets stop (endOfLine what) ts fun us _ => Grammar.Eol ts us ∧ us <:+ ts := by
  refine meets_get fun behind => ?_
  rw [Cursor.atEnd_on hstop hts]
  cases ts with
  | nil =>
    refine meets_current.mono ?_
    rintro _ _ ⟨rfl, -⟩
    exact ⟨.atEnd, List.suffix_refl _⟩
  | cons t us =>
    refine (meets_expect hstop (by decide) what).mono ?_
    rintro us' t' ⟨heq, ht⟩
    obtain ⟨rfl, rfl⟩ := List.cons.inj heq
    exact ⟨.newline ht, List.suffix_cons _ _⟩

theorem meets_integer (ht : t.Proper) (hkind : t.kind = .integer) :
    Meets stop (integer t) ts fun us n => us = ts ∧ Text.readInteger t.lexeme = .ok n := by
  obtain ⟨n, hn⟩ := ht.readable hkind
  unfold integer
  rw [hn]
  exact meets_pure ⟨rfl, rfl⟩

end Meets

/-! ### What a reader does -/

/-- The reader reads from some tokens up to others, and returns this. -/
def Reads (stop : Token) (x : Parser β) (ts us : List Token) (b : β) : Prop :=
  ∀ behind, ∃ behind', x.run (.on stop behind ts) = .ok (b, .on stop behind' us)

section Reads

variable {b : β} {c : γ}

theorem reads_pure : Reads stop (pure b) ts ts b :=
  fun behind => ⟨behind, rfl⟩

theorem Reads.bind {x : Parser β} {f : β → Parser γ} (hx : Reads stop x ts us b)
    (hf : Reads stop (f b) us vs c) : Reads stop (x >>= f) ts vs c := by
  intro behind
  obtain ⟨behind', hrun⟩ := hx behind
  rw [StateT.run_bind, hrun]
  exact hf behind'

theorem reads_get {f : Cursor → Parser γ}
    (h : ∀ behind, Reads stop (f (.on stop behind ts)) ts us c) : Reads stop (get >>= f) ts us c :=
  fun behind => h behind behind

theorem reads_current : Reads stop current ts ts (ts.headD stop) := by
  refine fun behind => ⟨behind, ?_⟩
  show Except.ok ((Cursor.on stop behind ts).current, _) = _
  rw [Cursor.current_on]

theorem reads_next {kind : Token.Kind} (ht : t.kind = kind) (hkind : kind ≠ .eof) :
    Reads stop next (t :: ts) ts t := by
  refine fun behind => ⟨t :: behind, ?_⟩
  show Except.ok (t, (Cursor.on stop behind (t :: ts)).advance) = _
  rw [Cursor.advance_on (ht ▸ hkind)]

theorem reads_bound : Reads stop bound ts ts (ts.length + 2) := by
  refine fun behind => ⟨behind, ?_⟩
  show Except.ok ((Cursor.on stop behind ts).ahead.length + 2, _) = _
  rw [Cursor.length_ahead_on]

theorem reads_expect {kind : Token.Kind} (ht : t.kind = kind) (hkind : kind ≠ .eof)
    (what : ParseFault) : Reads stop (expect kind what) (t :: ts) ts t := by
  refine reads_current.bind ?_
  rw [List.headD_cons, if_pos ht]
  exact reads_next ht hkind

theorem reads_endOfLine (hstop : stop.kind = .eof) (h : Grammar.Eol ts us) (what : ParseFault) :
    ∃ t, Reads stop (endOfLine what) ts us t := by
  cases h with
  | @newline t _ ht =>
    refine ⟨t, reads_get fun behind => ?_⟩
    rw [if_neg (by simp [Cursor.atEnd, ht])]
    exact reads_expect ht (by decide) what
  | atEnd =>
    refine ⟨stop, reads_get fun behind => ?_⟩
    rw [if_pos (by simp [Cursor.atEnd, hstop])]
    exact reads_current

theorem reads_integer {n : Int} (hn : Text.readInteger t.lexeme = .ok n) :
    Reads stop (integer t) ts ts n := by
  unfold integer
  rw [hn]
  exact reads_pure

/-- What a reader can do holds of what it does. -/
theorem Meets.of_reads {x : Parser β} {Q : List Token → β → Prop} (h : Meets stop x ts Q)
    (hr : Reads stop x ts us b) : Q us b := by
  obtain ⟨behind, hrun⟩ := hr []
  rcases h [] with ⟨behind', vs, c, hrun', hQ⟩ | ⟨what, span, hrun'⟩
  · obtain ⟨rfl, hcursor⟩ := Prod.mk.inj (Except.ok.inj (hrun.symm.trans hrun'))
    rwa [Cursor.on_inj hcursor]
  · exact nomatch hrun.symm.trans hrun'

end Reads

end Parser

end Vapor
