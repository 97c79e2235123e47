/-
Vapor/Proofs/Grammar/Abreast.lean

The reader of tokens does not look at their places, nor behind the end of the text
(`parse_abreast`).  Two lists of tokens are abreast (`Token.Abreast`) if up to the first
token that ends the text they are the same but for their places, and the places of the one
are those of the other under some map; whatever may follow in either list.  Then both make
the same program, with the places mapped, or both fail in the same way.

A reader is run on both lists at once (`Along`), and for each reader it is shown that the
two runs stay side by side.  The loops have different bounds in the two lists, and none of
them is ever reached: each round reads a token, and `n` counts those up to the end.

The map has to respect the joining of spans, as do the identity, which leaves what comes
behind the end, and a constant map, which leaves nothing of the places.
-/
import Vapor.Program.Parser

namespace Vapor

/-- Replaces the place. -/
def Token.map (f : Span → Span) (t : Token) : Token :=
  ⟨t.kind, t.lexeme, f t.span⟩

@[simp] theorem Token.kind_map (f : Span → Span) (t : Token) : (t.map f).kind = t.kind := rfl

/-- Replaces the place, if there is one. -/
def ParseError.map (f : Span → Span) : ParseError → ParseError
  | .noTokens => .noTokens
  | .fault what span => .fault what (f span)
  | .integer cause => .integer cause
  | .endless => .endless

@[simp] theorem Operand.note_map {α β : Type} (f : α → β) (o : Operand α) :
    (o.map f).note = f o.note := by
  cases o <;> rfl

@[simp] theorem Instr.note_map {α β : Type} (f : α → β) (i : Instr α) :
    (i.map f).note = f i.note := by
  cases i <;> rfl

/-- The lists agree but for the places, up to the first token that ends the text, which
comes after `n` others. -/
inductive Token.Abreast (f : Span → Span) : Nat → List Token → List Token → Prop where
  | stop {t : Token} {rest rest' : List Token} (h : t.kind = .eof) :
      Abreast f 0 (t :: rest) (t.map f :: rest')
  | more {n : Nat} {t : Token} {ts ts' : List Token} (ht : t.kind ≠ .eof)
      (h : Abreast f n ts ts') : Abreast f (n + 1) (t :: ts) (t.map f :: ts')

theorem Token.Abreast.lt_length {f : Span → Span} {n : Nat} {ts ts' : List Token}
    (h : Abreast f n ts ts') : n < ts.length ∧ n < ts'.length := by
  induction h with
  | stop => exact ⟨Nat.succ_pos _, Nat.succ_pos _⟩
  | more _ _ ih => exact ⟨Nat.succ_lt_succ ih.1, Nat.succ_lt_succ ih.2⟩

/-- The tokens from the current one on agree in this way. -/
def Cursor.Abreast (f : Span → Span) (n : Nat) (s s' : Cursor) : Prop :=
  Token.Abreast f n (s.current :: s.ahead) (s'.current :: s'.ahead)

namespace Cursor.Abreast

variable {f : Span → Span} {n : Nat} {s s' : Cursor}

theorem current (h : s.Abreast f n s') : s'.current = s.current.map f := by
  obtain ⟨behind, t, ts⟩ := s
  obtain ⟨behind', t', ts'⟩ := s'
  cases h <;> rfl

theorem kind (h : s.Abreast f n s') : s'.current.kind = s.current.kind := by
  rw [h.current]
  rfl

theorem atEnd (h : s.Abreast f n s') : s'.atEnd = s.atEnd := by
  rw [Cursor.atEnd, h.kind]
  rfl

theorem atItem (h : s.Abreast f n s') : s'.atItem = s.atItem := by
  rw [Cursor.atItem, h.atEnd, h.kind]
  rfl

theorem isAny (h : s.Abreast f n s') (kinds : List Token.Kind) :
    s'.isAny kinds = s.isAny kinds := by
  rw [Cursor.isAny, h.kind]
  rfl

/-- Before the end both cursors move on. -/
theorem advance (h : s.Abreast f n s') (hkind : s.current.kind ≠ .eof) :
    ∃ k, n = k + 1 ∧ s.advance.Abreast f k s'.advance ∧
      s.advance.current = s.peek 1 ∧ s'.peek 1 = (s.peek 1).map f := by
  have hend : s.atEnd = false := beq_eq_false_iff_ne.mpr hkind
  have hend' : s'.atEnd = false := h.atEnd.trans hend
  obtain ⟨behind, t, ts⟩ := s
  obtain ⟨behind', t', ts'⟩ := s'
  cases h with
  | stop h => exact absurd h hkind
  | more _ h =>
    rw [Cursor.advance, Cursor.advance, hend, hend']
    cases h with
    | stop h => exact ⟨_, rfl, .stop h, rfl, rfl⟩
    | more ht h => exact ⟨_, rfl, .more ht h, rfl, rfl⟩

/-- At the end the cursors may look at different tokens. -/
theorem peek_kind (h : s.Abreast f n s') :
    s.current.kind = .eof ∨ (s'.peek 1).kind = (s.peek 1).kind := by
  by_cases hkind : s.current.kind = .eof
  · exact .inl hkind
  · obtain ⟨-, -, -, -, hpeek⟩ := h.advance hkind
    rw [hpeek]
    exact .inr rfl

/-- The bounds for loops are large enough. -/
theorem lt_bound (h : s.Abreast f n s') :
    n < s.ahead.length + 2 ∧ n < s'.ahead.length + 2 := by
  have hlt := Token.Abreast.lt_length h
  simp only [List.length_cons] at hlt
  omega

end Cursor.Abreast

namespace Parser

variable {β β' γ γ' : Type}

/-! ### Two runs side by side -/

/-- Two runs end side by side with corresponding results, or fail with the same error, and
not because the tokens do not come to an end. -/
inductive Beside (f : Span → Span) (g : β → β') (Q : Nat → Cursor → β → Prop) :
    Except ParseError (β × Cursor) → Except ParseError (β' × Cursor) → Prop where
  | ok {k : Nat} {s s' : Cursor} {b : β} (hs : s.Abreast f k s') (h : Q k s b) :
      Beside f g Q (.ok (b, s)) (.ok (g b, s'))
  | error {e : ParseError} (he : e ≠ .endless) : Beside f g Q (.error e) (.error (e.map f))

/-- The readers go along with each other from the cursors on. -/
def Along (f : Span → Span) (x : Parser β) (x' : Parser β') (s s' : Cursor) (g : β → β')
    (Q : Nat → Cursor → β → Prop) : Prop :=
  Beside f g Q (x.run s) (x'.run s')

section Rules

variable {f : Span → Span} {n : Nat} {s s' : Cursor} {g : β → β'} {g' : γ → γ'}
  {Q : Nat → Cursor → β → Prop} {R : Nat → Cursor → γ → Prop}

theorem along_pure {b : β} {b' : β'} (hs : s.Abreast f n s') (hb : g b = b') (h : Q n s b) :
    Along f (pure b) (pure b') s s' g Q :=
  hb ▸ .ok hs h

theorem along_fault (what : ParseFault) (span : Span) :
    Along f (throw (.fault what span) : Parser β) (throw (.fault what (f span))) s s' g Q :=
  .error fun h => by cases h

theorem Along.bind {x : Parser β} {x' : Parser β'} {h : β → Parser γ} {h' : β' → Parser γ'}
    (hx : Along f x x' s s' g Q)
    (hh : ∀ k u u' b, u.Abreast f k u' → Q k u b → Along f (h b) (h' (g b)) u u' g' R) :
    Along f (x >>= h) (x' >>= h') s s' g' R := by
  unfold Along at hx ⊢
  rw [StateT.run_bind, StateT.run_bind]
  generalize x.run s = r at hx
  generalize x'.run s' = r' at hx
  cases hx with
  | ok hs hQ => exact hh _ _ _ _ hs hQ
  | error he => exact .error he

theorem Along.mono {Q' : Nat → Cursor → β → Prop} {x : Parser β} {x' : Parser β'}
    (hx : Along f x x' s s' g Q) (h : ∀ k u b, Q k u b → Q' k u b) :
    Along f x x' s s' g Q' := by
  unfold Along at hx ⊢
  generalize x.run s = r at hx
  generalize x'.run s' = r' at hx
  cases hx with
  | ok hs hQ => exact .ok hs (h _ _ _ hQ)
  | error he => exact .error he

theorem along_ite {c : Prop} [Decidable c] {x y : Parser β} {x' y' : Parser β'}
    (hx : c → Along f x x' s s' g Q) (hy : ¬c → Along f y y' s s' g Q) :
    Along f (if c then x else y) (if c then x' else y') s s' g Q := by
  by_cases hc : c
  · rw [if_pos hc, if_pos hc]
    exact hx hc
  · rw [if_neg hc, if_neg hc]
    exact hy hc

theorem along_get {h : Cursor → Parser γ} {h' : Cursor → Parser γ'}
    (hh : Along f (h s) (h' s') s s' g' R) : Along f (get >>= h) (get >>= h') s s' g' R :=
  hh

theorem along_current (hs : s.Abreast f n s') {h : Token → Parser γ} {h' : Token → Parser γ'}
    (hh : Along f (h s.current) (h' (s.current.map f)) s s' g' R) :
    Along f (current >>= h) (current >>= h') s s' g' R := by
  rw [← hs.current] at hh
  exact hh

theorem along_failHere (hs : s.Abreast f n s') (what : ParseFault) :
    Along f (failHere what : Parser β) (failHere what) s s' g Q :=
  along_current hs (along_fault what s.current.span)

/-- Before the end a token is read. -/
theorem along_next (hs : s.Abreast f n s') (hkind : s.current.kind ≠ .eof) :
    Along f next next s s' (Token.map f) fun k u t =>
      n = k + 1 ∧ u.current = s.peek 1 ∧ t = s.current := by
  obtain ⟨k, hk, hadvance, hpeek, -⟩ := hs.advance hkind
  show Beside f _ _ (.ok (s.current, s.advance)) (.ok (s'.current, s'.advance))
  rw [hs.current]
  exact .ok hadvance ⟨hk, hpeek, rfl⟩

theorem along_expect (hs : s.Abreast f n s') {kind : Token.Kind} (hkind : kind ≠ .eof)
    (what : ParseFault) :
    Along f (expect kind what) (expect kind what) s s' (Token.map f) fun k _ t =>
      n = k + 1 ∧ t.kind = kind := by
  refine along_current hs ?_
  refine along_ite (fun heq => ?_) fun _ => along_failHere hs what
  refine (along_next hs (heq ▸ hkind)).mono ?_
  rintro k u t ⟨hk, -, rfl⟩
  exact ⟨hk, heq⟩

theorem along_endOfLine (hs : s.Abreast f n s') (what : ParseFault) :
    Along f (endOfLine what) (endOfLine what) s s' (Token.map f) fun k _ _ => k ≤ n := by
  refine along_get ?_
  rw [hs.atEnd]
  refine along_ite (fun _ => ?_) fun _ => ?_
  · show Beside f _ _ (.ok (s.current, s)) (.ok (s'.current, s'))
    rw [hs.current]
    exact .ok hs (Nat.le_refl n)
  · refine (along_expect hs (by decide) what).mono ?_
    rintro k u t ⟨rfl, -⟩
    exact Nat.le_succ k

/-- The bounds for loops may differ. -/
theorem along_bound {h : Nat → Parser γ} {h' : Nat → Parser γ'} (hs : s.Abreast f n s')
    (hh : ∀ rounds rounds', n < rounds → n < rounds' →
      Along f (h rounds) (h' rounds') s s' g' R) :
    Along f (bound >>= h) (bound >>= h') s s' g' R :=
  hh _ _ hs.lt_bound.1 hs.lt_bound.2

theorem along_integer (hs : s.Abreast f n s') (t : Token) :
    Along f (integer t) (integer (t.map f)) s s' id fun k _ _ => k = n := by
  show Along f (integer t) (integer t) s s' id _
  unfold integer
  split
  · exact along_pure hs rfl rfl
  · exact .error fun h => by cases h

/-- Each round of a loop leaves fewer tokens than `n`.  So two loops may be compared by
their first rounds, whatever their bounds are, as long as both are above `n`. -/
theorem rounds_induction {motive : (n rounds rounds' : Nat) → n < rounds → n < rounds' → Prop}
    (step : ∀ n rounds rounds' h h',
      (∀ k (hk : k < n), motive k rounds rounds' (Nat.lt_of_lt_of_le hk (Nat.le_of_lt_succ h))
        (Nat.lt_of_lt_of_le hk (Nat.le_of_lt_succ h'))) →
      motive n (rounds + 1) (rounds' + 1) h h')
    (n rounds rounds' : Nat) (h : n < rounds) (h' : n < rounds') :
    motive n rounds rounds' h h' := by
  induction rounds generalizing n rounds' with
  | zero => exact absurd h (Nat.not_lt_zero n)
  | succ rounds ih =>
    cases rounds' with
    | zero => exact absurd h' (Nat.not_lt_zero n)
    | succ rounds' => exact step n rounds rounds' h h' fun k hk => ih k rounds' _ _

end Rules

/-! ### Operands -/

section Readers

variable {f : Span → Span} (hf : ∀ a b, f (a.join b) = (f a).join (f b))
variable {n : Nat} {s s' : Cursor}

include hf

theorem along_label (hs : s.Abreast f n s') :
    Along f label label s s' (Ref.map f) fun k _ _ => k < n := by
  refine (along_expect hs (by decide) _).bind ?_
  rintro k u u' colon hu ⟨rfl, -⟩
  refine (along_expect hu (by decide) _).bind ?_
  rintro k v v' name hv ⟨rfl, -⟩
  exact along_pure hv (congrArg _ (hf _ _)) (by omega)

theorem along_operand (hs : s.Abreast f n s') :
    Along f operand operand s s' (Operand.map f) fun k _ _ => k < n := by
  refine along_current hs ?_
  simp only [Token.kind_map]
  split
  · rename_i hkind
    refine (along_next hs (by rw [hkind]; decide)).bind ?_
    rintro k u u' t hu ⟨rfl, -, -⟩
    exact along_pure hu rfl (Nat.lt_succ_self k)
  · rename_i hkind
    refine (along_next hs (by rw [hkind]; decide)).bind ?_
    rintro k u u' t hu ⟨rfl, -, -⟩
    refine (along_integer hu s.current).bind ?_
    rintro _ v v' value hv rfl
    exact along_pure hv rfl (Nat.lt_succ_self _)
  · rename_i hkind
    refine (along_next hs (by rw [hkind]; decide)).bind ?_
    rintro k u u' t hu ⟨rfl, -, -⟩
    exact along_pure hu rfl (Nat.lt_succ_self k)
  · refine (along_label hf hs).bind ?_
    rintro k u u' l hu hk
    exact along_pure hu rfl hk
  · exact along_failHere hs _

theorem along_operands {rounds rounds' : Nat} (hs : s.Abreast f n s') (hrounds : n < rounds)
    (hrounds' : n < rounds') :
    Along f (operands rounds) (operands rounds') s s' (Prod.map (List.map (Operand.map f)) f)
      fun k _ _ => k < n := by
  induction n, rounds, rounds', hrounds, hrounds' using rounds_induction generalizing s s' with
  | step n rounds rounds' _ _ ih =>
    refine along_current hs ?_
    simp only [Token.kind_map]
    split
    · rename_i hkind
      refine (along_next hs (by rw [hkind]; decide)).bind ?_
      rintro k u u' t hu ⟨rfl, -, -⟩
      exact along_pure hu rfl (Nat.lt_succ_self k)
    · exact along_failHere hs _
    · exact along_failHere hs _
    · refine (along_operand hf hs).bind ?_
      rintro k u u' x hu hk
      refine (ih _ (by omega) hu).bind ?_
      rintro j v v' ⟨xs, close⟩ hv hj
      exact along_pure hv rfl (by omega)

theorem along_args (hs : s.Abreast f n s') :
    Along f args args s s' (Prod.map (List.map (Operand.map f)) f) fun k _ _ => k < n := by
  refine (along_expect hs (by decide) _).bind ?_
  rintro k u u' opening hu ⟨rfl, -⟩
  refine along_bound hu fun rounds rounds' hrounds hrounds' => ?_
  refine (along_operands hf hu hrounds hrounds').mono ?_
  rintro j v r hj
  omega

omit hf in
theorem along_offset (hs : s.Abreast f n s') :
    Along f offset offset s s' id fun k _ _ => k ≤ n := by
  refine along_current hs (along_ite (fun hkind => ?_) fun _ =>
    along_ite (fun hkind => ?_) fun _ => ?_)
  · refine (along_next hs (by rw [hkind]; decide)).bind ?_
    rintro k u u' t hu ⟨rfl, -, -⟩
    refine (along_expect hu (by decide) _).bind ?_
    rintro k v v' number hv ⟨rfl, -⟩
    refine (along_integer hv number).mono ?_
    rintro j w value rfl
    omega
  · refine (along_next hs (by rw [hkind.1]; decide)).bind ?_
    rintro k u u' t hu ⟨rfl, -, -⟩
    refine (along_integer hu s.current).mono ?_
    rintro j v value rfl
    omega
  · exact along_pure hs rfl (Nat.le_refl n)

theorem along_address (hs : s.Abreast f n s') (hkind : s.current.kind = .lbracket) :
    Along f address address s s' (Address.map f) fun k _ _ => k < n := by
  refine (along_next hs (by rw [hkind]; decide)).bind ?_
  rintro k u u' opening hu ⟨rfl, -, -⟩
  refine (along_expect hu (by decide) _).bind ?_
  rintro k v v' base hv ⟨rfl, -⟩
  refine (along_offset hv).bind ?_
  rintro j w w' offset hw hj
  refine (along_expect hw (by decide) _).bind ?_
  rintro j x x' close hx ⟨rfl, -⟩
  exact along_pure hx (congrArg _ (hf _ _)) (by omega)

/-! ### Instructions -/

theorem along_call (dest : Option (Ref Span)) (start : Span) (hs : s.Abreast f n s')
    (hkind : s.current.kind = .call) :
    Along f (call dest start) (call (dest.map (Ref.map f)) (f start)) s s' (Instr.map f)
      fun k _ _ => k < n := by
  refine (along_next hs (by rw [hkind]; decide)).bind ?_
  rintro k u u' keyword hu ⟨rfl, -, -⟩
  have hargs {j : Nat} {v v' : Cursor} (hv : v.Abreast f j v') (hj : j < k) (c : Callee Span) :
      Along f (do let r ← args; return Instr.call dest c r.1 (start.join r.2))
        (do let r ← args; return .call (dest.map (Ref.map f)) (c.map f) r.1 ((f start).join r.2))
        v v' (Instr.map f) fun i _ _ => i < k + 1 := by
    refine (along_args hf hv).bind ?_
    rintro i w w' r hw hi
    exact along_pure hw (congrArg _ (hf _ _)) (by omega)
  refine along_current hu (along_ite (fun _ => ?_) fun _ => ?_)
  · refine (along_label hf hu).bind ?_
    rintro j v v' l hv hj
    exact hargs hv hj (.label l)
  · refine (along_expect hu (by decide) _).bind ?_
    rintro j v v' name hv ⟨rfl, -⟩
    exact hargs hv (Nat.lt_succ_self j) (.var ⟨name.lexeme, name.span⟩)

theorem along_application (dest : Option (Ref Span)) (start : Span) (hs : s.Abreast f n s')
    (hkind : s.current.kind = .ident) :
    Along f (application dest start) (application (dest.map (Ref.map f)) (f start)) s s'
      (Instr.map f) fun k _ _ => k < n := by
  refine (along_next hs (by rw [hkind]; decide)).bind ?_
  rintro k u u' op hu ⟨rfl, -, -⟩
  refine (along_args hf hu).bind ?_
  rintro j v v' r hv hj
  exact along_pure hv (congrArg _ (hf _ _)) (by omega)

theorem along_assignment (dest : Ref Span) (hs : s.Abreast f n s') :
    Along f (assignment dest) (assignment (dest.map f)) s s' (Instr.map f) fun k _ _ => k < n := by
  have hoperand : Along f (do let o ← operand; return Instr.assign dest o (dest.note.join o.note))
      (do let o ← operand; return .assign (dest.map f) o ((f dest.note).join o.note)) s s'
      (Instr.map f) fun k _ _ => k < n := by
    refine (along_operand hf hs).bind ?_
    rintro k u u' o hu hk
    exact along_pure hu (by rw [Instr.map, hf, Operand.note_map]) hk
  refine along_get ?_
  rcases hs.peek_kind with heof | hpeek
  · simp only [hs.kind, heof]
    exact hoperand
  · simp only [hs.kind, hpeek]
    split
    · refine (along_address hf hs ‹_›).bind ?_
      rintro k u u' a hu hk
      exact along_pure hu (congrArg _ (hf _ _)) hk
    · exact along_call hf _ _ hs ‹_›
    · exact along_application hf _ _ hs ‹_›
    · exact hoperand

theorem along_branch (positive : Bool) (hs : s.Abreast f n s') (hkind : s.current.kind ≠ .eof) :
    Along f (branch positive) (branch positive) s s' (Instr.map f) fun k _ _ => k < n := by
  refine (along_next hs hkind).bind ?_
  rintro k u u' keyword hu ⟨rfl, -, -⟩
  refine (along_operand hf hu).bind ?_
  rintro j v v' test hv hj
  refine (along_expect hv (by decide) _).bind ?_
  rintro j w w' goto hw ⟨rfl, -⟩
  refine (along_label hf hw).bind ?_
  rintro i x x' target hx hi
  exact along_pure hx (congrArg _ (hf _ _)) (by omega)

theorem along_instr (hs : s.Abreast f n s') :
    Along f instr instr s s' (Instr.map f) fun k _ _ => k < n := by
  refine along_get ?_
  rcases hs.peek_kind with heof | hpeek
  · simp only [hs.kind, heof]
    exact along_failHere hs _
  simp only [hs.current, hpeek, Token.map]
  split
  · rename_i hkind hassign
    refine (along_next hs (by rw [hkind]; decide)).bind ?_
    rintro k u u' t hu ⟨rfl, hu', -⟩
    refine (along_next hu (by rw [hu', hassign]; decide)).bind ?_
    rintro k v v' eq hv ⟨rfl, -, -⟩
    refine (along_assignment hf ⟨s.current.lexeme, s.current.span⟩ hv).mono ?_
    rintro j w i hj
    omega
  · exact along_application hf none s.current.span hs ‹_›
  · refine (along_address hf hs ‹_›).bind ?_
    rintro k u u' a hu hk
    refine (along_expect hu (by decide) _).bind ?_
    rintro k v v' eq hv ⟨rfl, -⟩
    refine (along_operand hf hv).bind ?_
    rintro j w w' o hw hj
    exact along_pure hw (by rw [Instr.map, hf, Operand.note_map]; rfl) (by omega)
  · exact along_call hf none s.current.span hs ‹_›
  · rename_i hkind
    exact along_branch hf true hs (by rw [hkind]; decide)
  · rename_i hkind
    exact along_branch hf false hs (by rw [hkind]; decide)
  · rename_i hkind
    refine (along_next hs (by rw [hkind]; decide)).bind ?_
    rintro k u u' t hu ⟨rfl, -, -⟩
    refine (along_label hf hu).bind ?_
    rintro j v v' target hv hj
    exact along_pure hv (congrArg _ (hf _ _)) (by omega)
  · rename_i hkind
    refine (along_next hs (by rw [hkind]; decide)).bind ?_
    rintro k u u' t hu ⟨rfl, -, -⟩
    refine along_get ?_
    rw [hu.isAny]
    refine along_ite (fun _ => ?_) fun _ => ?_
    · exact along_pure hu rfl (Nat.lt_succ_self k)
    · refine (along_operand hf hu).bind ?_
      rintro j v v' o hv hj
      refine along_pure hv ?_ (by omega)
      rw [Operand.note_map]
      exact congrArg _ (hf _ _)
  · exact along_failHere hs _

/-! ### Segments -/

theorem along_datum (hs : s.Abreast f n s') :
    Along f datum datum s s' (Datum.map f) fun k _ _ => k < n := by
  refine along_current hs ?_
  simp only [Token.kind_map]
  split
  · refine (along_label hf hs).bind ?_
    rintro k u u' l hu hk
    exact along_pure hu rfl hk
  · rename_i hkind
    refine (along_next hs (by rw [hkind]; decide)).bind ?_
    rintro k u u' t hu ⟨rfl, -, -⟩
    refine (along_integer hu s.current).bind ?_
    rintro _ v v' value hv rfl
    exact along_pure hv rfl (Nat.lt_succ_self _)
  · exact along_failHere hs _

theorem along_data {rounds rounds' : Nat} (last : Span) (hs : s.Abreast f n s')
    (hrounds : n < rounds) (hrounds' : n < rounds') :
    Along f (data last rounds) (data (f last) rounds') s s' (Prod.map (List.map (Datum.map f)) f)
      fun k _ _ => k ≤ n := by
  induction n, rounds, rounds', hrounds, hrounds' using rounds_induction generalizing s s' last with
  | step n rounds rounds' _ _ ih =>
    have hrest {k j : Nat} {u u' : Cursor} (value : Datum Span) (last : Span)
        (hu : u.Abreast f j u') (hj : j ≤ k) (hk : k < n) :
        Along f (do let r ← data last rounds; return (value :: r.1, r.2))
          (do let r ← data (f last) rounds'; return (value.map f :: r.1, r.2)) u u'
          (Prod.map (List.map (Datum.map f)) f) fun i _ _ => i ≤ n := by
      refine (ih _ (by omega) last hu).bind ?_
      rintro i v v' r hv hi
      exact along_pure hv rfl (by omega)
    refine along_get ?_
    rw [hs.atItem, hs.kind]
    refine along_ite (fun _ => ?_) fun _ => along_ite (fun hkind => ?_) fun _ => ?_
    · exact along_pure hs rfl (Nat.le_refl n)
    · refine (along_next hs (by rw [hkind]; decide)).bind ?_
      rintro k u u' t hu ⟨rfl, -, -⟩
      refine (ih _ (by omega) last hu).mono ?_
      rintro j v r hj
      omega
    · refine (along_datum hf hs).bind ?_
      rintro k u u' value hu hk
      refine along_get ?_
      rw [hu.isAny]
      refine along_ite (fun _ => ?_) fun _ => ?_
      · exact hrest value last hu (Nat.le_refl k) hk
      · refine (along_endOfLine hu _).bind ?_
        rintro j v v' t hv hj
        exact hrest value t.span hv hj hk

theorem along_segment (keyword : Token) (hs : s.Abreast f n s') :
    Along f (segment keyword) (segment (keyword.map f)) s s' (Segment.map f)
      fun k _ _ => k < n := by
  refine (along_expect hs (by decide) _).bind ?_
  rintro k u u' name hu ⟨rfl, -⟩
  refine (along_endOfLine hu _).bind ?_
  rintro j v v' header hv hj
  refine along_bound hv fun rounds rounds' hrounds hrounds' => ?_
  refine (along_data hf header.span hv hrounds hrounds').bind ?_
  rintro i w w' r hw hi
  exact along_pure hw (congrArg _ (hf _ _)) (by omega)

/-! ### Functions -/

omit hf in
theorem along_params {rounds rounds' : Nat} (seen : List String) (hs : s.Abreast f n s')
    (hrounds : n < rounds) (hrounds' : n < rounds') :
    Along f (params seen rounds) (params seen rounds') s s' (Prod.map (List.map (Ref.map f)) f)
      fun k _ _ => k < n := by
  induction n, rounds, rounds', hrounds, hrounds' using rounds_induction generalizing s s' seen with
  | step n rounds rounds' _ _ ih =>
    refine along_current hs (along_ite (fun hkind => ?_) fun _ => ?_)
    · have hkind : s.current.kind = .rparen := hkind
      refine (along_next hs (by rw [hkind]; decide)).bind ?_
      rintro k u u' t hu ⟨rfl, -, -⟩
      exact along_pure hu rfl (Nat.lt_succ_self k)
    · refine (along_expect hs (by decide) _).bind ?_
      rintro k u u' name hu ⟨rfl, -⟩
      refine along_ite (fun _ => ?_) fun _ => ?_
      · exact along_fault _ name.span
      · refine (ih _ (by omega) (name.lexeme :: seen) hu).bind ?_
        rintro j v v' r hv hj
        exact along_pure hv rfl (by omega)

/-- Replaces all places. -/
def Block.map (f : Span → Span) (b : Block) : Block :=
  ⟨b.body.map (Instr.map f), b.labels.map (Label.map f), f b.last⟩

theorem along_block {rounds rounds' : Nat} (index : Nat) (seen : List String) (last : Span)
    (hs : s.Abreast f n s') (hrounds : n < rounds) (hrounds' : n < rounds') :
    Along f (block index seen last rounds) (block index seen (f last) rounds') s s' (Block.map f)
      fun k _ _ => k ≤ n := by
  induction n, rounds, rounds', hrounds, hrounds' using rounds_induction
    generalizing s s' index seen last with
  | step n rounds rounds' _ _ ih =>
    have hinstr : Along f
        (do let i ← instr
            let _ ← endOfLine .noInstrLineEnd
            let rest ← block (index + 1) seen i.note rounds
            return { rest with body := i :: rest.body })
        (do let i ← instr
            let _ ← endOfLine .noInstrLineEnd
            let rest ← block (index + 1) seen i.note rounds'
            return { rest with body := i :: rest.body })
        s s' (Block.map f) fun k _ _ => k ≤ n := by
      refine (along_instr hf hs).bind ?_
      rintro k u u' i hu hk
      refine (along_endOfLine hu _).bind ?_
      rintro j v v' _ hv hj
      rw [Instr.note_map]
      refine (ih _ (by omega) (index + 1) seen i.note hv).bind ?_
      rintro l w w' rest hw hl
      exact along_pure hw rfl (by omega)
    refine along_get ?_
    rw [hs.atItem, hs.kind]
    refine along_ite (fun _ => ?_) fun _ => along_ite (fun hkind => ?_) fun _ => ?_
    · exact along_pure hs rfl (Nat.le_refl n)
    · refine (along_next hs (by rw [hkind]; decide)).bind ?_
      rintro k u u' t hu ⟨rfl, -, -⟩
      refine (ih _ (by omega) index seen last hu).mono ?_
      rintro j v b hj
      omega
    -- at the end of the text there is no label, whatever comes behind
    rcases hs.peek_kind with heof | hpeek
    · have hlabel : ∀ kind : Token.Kind, ¬(s.current.kind = .ident ∧ kind = .colon) := by
        intro kind h
        rw [heof] at h
        cases h.1
      rw [if_neg (hlabel _), if_neg (hlabel _)]
      exact hinstr
    rw [hpeek]
    refine along_ite (fun hkind => ?_) fun _ => hinstr
    refine (along_next hs (by rw [hkind.1]; decide)).bind ?_
    rintro k u u' name hu ⟨rfl, hu', -⟩
    refine (along_next hu (by rw [hu', hkind.2]; decide)).bind ?_
    rintro k v v' colon hv ⟨rfl, -, -⟩
    refine along_ite (fun _ => ?_) fun _ => ?_
    · exact along_fault _ name.span
    · refine (along_endOfLine hv _).bind ?_
      rintro j w w' _ hw hj
      refine (ih _ (by omega) index (name.lexeme :: seen) name.span hw).bind ?_
      rintro i x x' rest hx hi
      exact along_pure hx rfl (by omega)

theorem along_function (keyword : Token) (hs : s.Abreast f n s') :
    Along f (function keyword) (function (keyword.map f)) s s' (Function.map f)
      fun k _ _ => k < n := by
  refine (along_expect hs (by decide) _).bind ?_
  rintro k u u' name hu ⟨rfl, -⟩
  refine (along_expect hu (by decide) _).bind ?_
  rintro k v v' opening hv ⟨rfl, -⟩
  refine along_bound hv fun rounds rounds' hrounds hrounds' => ?_
  refine (along_params [] hv hrounds hrounds').bind ?_
  rintro j w w' r hw hj
  refine (along_endOfLine hw _).bind ?_
  rintro i x x' _ hx hi
  refine along_bound hx fun rounds rounds' hrounds hrounds' => ?_
  refine (along_block hf 0 [] r.2 hx hrounds hrounds').bind ?_
  rintro l y y' b hy hl
  exact along_pure hy (congrArg _ (hf _ _)) (by omega)

/-! ### Programs -/

theorem along_items {rounds rounds' : Nat} (hs : s.Abreast f n s') (hrounds : n < rounds)
    (hrounds' : n < rounds') :
    Along f (items rounds) (items rounds') s s'
      (Prod.map (List.map (Segment.map f)) (List.map (Function.map f))) fun _ _ _ => True := by
  induction n, rounds, rounds', hrounds, hrounds' using rounds_induction generalizing s s' with
  | step n rounds rounds' _ _ ih =>
    have hsegment (hkind : s.current.kind ≠ .eof) : Along f
        (do let _ ← next
            let segment ← segment s.current
            let r ← items rounds
            return (segment :: r.1, r.2))
        (do let _ ← next
            let segment ← segment (s.current.map f)
            let r ← items rounds'
            return (segment :: r.1, r.2))
        s s' (Prod.map (List.map (Segment.map f)) (List.map (Function.map f)))
        fun _ _ _ => True := by
      refine (along_next hs hkind).bind ?_
      rintro k u u' t hu ⟨rfl, -, -⟩
      refine (along_segment hf s.current hu).bind ?_
      rintro j v v' segment hv hj
      refine (ih _ (by omega) hv).bind ?_
      rintro i w w' r hw -
      exact along_pure hw rfl trivial
    refine along_current hs ?_
    simp only [Token.kind_map]
    split
    · exact along_pure hs rfl trivial
    · rename_i hkind
      refine (along_next hs (by rw [hkind]; decide)).bind ?_
      rintro k u u' t hu ⟨rfl, -, -⟩
      exact ih _ (by omega) hu
    · rename_i hkind
      exact hsegment (by rw [hkind]; decide)
    · rename_i hkind
      exact hsegment (by rw [hkind]; decide)
    · rename_i hkind
      refine (along_next hs (by rw [hkind]; decide)).bind ?_
      rintro k u u' t hu ⟨rfl, -, -⟩
      refine (along_function hf s.current hu).bind ?_
      rintro j v v' function hv hj
      refine (ih _ (by omega) hv).bind ?_
      rintro i w w' r hw -
      exact along_pure hw rfl trivial
    · exact along_failHere hs _

omit hf in
theorem duplicate?_map (seen : List String) (items : List (String × Span)) :
    duplicate? seen (items.map (Prod.map id f)) = (duplicate? seen items).map (Prod.map id f) := by
  induction items generalizing seen with
  | nil => rfl
  | cons item items ih =>
    simp only [List.map_cons, duplicate?, Prod.map_fst, id_eq]
    split
    · rfl
    · exact ih _

theorem along_program (hs : s.Abreast f n s') :
    Along f program program s s' (Program.map f) fun _ _ _ => True := by
  refine along_current hs (along_bound hs fun rounds rounds' hrounds hrounds' => ?_)
  refine (along_items hf hs hrounds hrounds').bind ?_
  rintro k u u' ⟨segments, functions⟩ hu -
  have hnames : (segments.map (Segment.map f)).map (fun s => (s.name, s.note))
        ++ (functions.map (Function.map f)).map (fun f => (f.name, f.note))
      = (segments.map (fun s => (s.name, s.note))
        ++ functions.map (fun f => (f.name, f.note))).map (Prod.map id f) := by
    simp [Segment.map, Function.map, Function.comp_def]
  simp only [Prod.map_apply, hnames, duplicate?_map]
  cases duplicate? [] _ with
  | some item => exact along_fault _ item.2
  | none =>
    refine along_current hu ?_
    exact along_pure hu (congrArg _ (hf _ _)) trivial

end Readers

end Parser

/-- **Places do not matter, nor what comes behind the end.**  Of two lists of tokens that are
abreast the reader makes the same program, with the places mapped, or it fails on both, in the
same way and at corresponding places.  It comes to an end on both. -/
theorem parse_abreast {f : Span → Span} (hf : ∀ a b, f (a.join b) = (f a).join (f b)) {n : Nat}
    {ts ts' : List Token} (h : Token.Abreast f n ts ts') :
    (∃ p, parse ts = .ok p ∧ parse ts' = .ok (p.map f)) ∨
      ∃ e, e ≠ .endless ∧ parse ts = .error e ∧ parse ts' = .error (e.map f) := by
  obtain ⟨t, rest, t', rest', rfl, rfl⟩ :
      ∃ t rest t' rest', ts = t :: rest ∧ ts' = t' :: rest' := by
    cases h with
    | stop | more => exact ⟨_, _, _, _, rfl, rfl⟩
  have hs : (Cursor.mk [] t rest).Abreast f n ⟨[], t', rest'⟩ := h
  have hbeside := Parser.along_program hf hs
  unfold Parser.Along at hbeside
  simp only [parse, Cursor.ofTokens?]
  generalize Parser.program.run ⟨[], t, rest⟩ = r at hbeside
  generalize Parser.program.run ⟨[], t', rest'⟩ = r' at hbeside
  cases hbeside with
  | ok => exact .inl ⟨_, rfl, rfl⟩
  | error he => exact .inr ⟨_, he, rfl, rfl⟩

end Vapor
