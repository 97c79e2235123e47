/-
Vapor/Proofs/Source/Extent.lean

Consecutive tokens of a text and the part of the text that they take up.  The tokens of a text
are laid out in it (`lex_laid`): each stands in its place, in the order of the text, and two
words with no token between them have only blanks between them.

Consecutive tokens reach from the start of their first to the end of their last (`Extent`).  If
some of them are consecutive too then these reach no further (`Extent.inside`), and later ones
begin where the earlier ones have ended (`Extent.before`).  What words of one line reach over is
read again as the same words (`Laid.lex_slice`).
-/
import Vapor.Proofs.Source.FirstFault

namespace Vapor

/-! ### Spans -/

/-- The span is not reversed, and it lies in the other one. -/
structure Span.Inside (inner outer : Span) : Prop where
  start : outer.start.offset ≤ inner.start.offset
  forward : inner.start.offset ≤ inner.stop.offset
  stop : inner.stop.offset ≤ outer.stop.offset

/-- The span ends before the other one begins. -/
def Span.Before (a b : Span) : Prop :=
  a.stop.offset ≤ b.start.offset

/-- The characters of a text that a span takes up. -/
def Span.chars (text : List Char) (span : Span) : List Char :=
  slice text span.start.offset span.stop.offset

/-- The token ends neither a line nor the text. -/
def Token.IsWord (t : Token) : Prop :=
  t.kind ≠ .newline ∧ t.kind ≠ .eof

instance Token.decidableIsWord (t : Token) : Decidable t.IsWord :=
  inferInstanceAs (Decidable (_ ∧ _))

/-! ### Between two words -/

/-- On one line a gap is made of blanks, unless the line ends behind it. -/
theorem Gap.blank_or_end {gap after : List Char} (h : Gap gap after) (hline : '\n' ∉ gap) :
    (∀ c ∈ gap, isBlank c = true) ∨ ∀ c ∈ after.head?, c = '\n' := by
  induction h with
  | nil => exact .inl (List.forall_mem_nil _)
  | blank hc _ ih =>
    rw [List.mem_cons, not_or] at hline
    exact (ih hline.2).imp_left fun hgap => List.forall_mem_cons.mpr ⟨hc, hgap⟩
  | newline _ _ => exact absurd List.mem_cons_self hline
  | @comment words gap after _ hend _ _ =>
    -- the comment ends with the line, and the line does not end in the gap
    refine .inr ?_
    cases gap with
    | nil => exact hend
    | cons c gap =>
      obtain rfl := hend c rfl
      simp at hline

namespace Scanner

variable {path : String} {text : List Char} {s s' : Scanner} {ts : List Token}

/-- A word comes out of a step where it stands, and its line is used from then on. -/
theorem Step.word_of_mem (h : Step s ts s') {t : Token} (ht : t ∈ ts) (hword : t.IsWord) :
    Word t.kind t.lexeme.toList s'.rest ∧ s'.used = true := by
  cases h with
  | @newline p used rest =>
    cases used with
    | true =>
      obtain rfl := List.mem_singleton.mp ht
      exact absurd rfl hword.1
    | false => exact absurd ht List.not_mem_nil
  | blank _ => exact absurd ht List.not_mem_nil
  | comment _ _ => exact absurd ht List.not_mem_nil
  | word hw =>
    obtain rfl := List.mem_singleton.mp ht
    exact ⟨by rwa [String.toList_ofList], rfl⟩

/-- Without a token, it does not change whether the line is used. -/
theorem Step.used_eq (h : Step s [] s') : s'.used = s.used := by
  generalize hts : ([] : List Token) = ts at h
  cases h with
  | @newline p used rest =>
    cases used with
    | true => cases hts
    | false => rfl
  | blank _ => rfl
  | comment _ _ => rfl
  | word _ => cases hts

end Scanner

/-- If the tokens are words then no line ends between them. -/
def OneLine (text : List Char) (t u : Token) : Prop :=
  t.IsWord → u.IsWord → '\n' ∉ slice text t.span.stop.offset u.span.start.offset

/-- What is known of the words before an offset, where the line may have been used. -/
structure Arranged (text : List Char) (k : Nat) (used : Bool) (out : List Token) : Prop where
  words : ∀ t ∈ out, t.IsWord → Word t.kind t.lexeme.toList (text.drop t.span.stop.offset)
  lines : out.IsChain (OneLine text)
  last : ∀ t ∈ out.getLast?, t.IsWord →
    used = true ∧ t.span.stop.offset ≤ k ∧ '\n' ∉ slice text t.span.stop.offset k

variable {path : String} {text : List Char}

namespace Scanner

variable {s s' : Scanner} {ts out : List Token} {k : Nat}

/-- What a step does to the words. -/
theorem Step.arranged (h : Step s ts s') (hs : At path text k s)
    (hout : Arranged text k s.used out) :
    ∃ k', At path text k' s' ∧ Arranged text k' s'.used (out ++ ts) := by
  obtain ⟨k', hkk, hs', ⟨t, rfl, hspan, -⟩ | ⟨rfl, -, hline⟩⟩ := h.effect hs
  · have hstart : t.span.start.offset = k := by
      rw [hspan, hs.pos, Pos.offset_ofOffset hs.le]
    have hstop : t.span.stop.offset = k' := by
      rw [hspan, hs'.pos, Pos.offset_ofOffset hs'.le]
    have hword := h.word_of_mem (List.mem_singleton_self t)
    refine ⟨k', hs', Lined.forall_mem_concat hout.words ?_, isChain_concat.mpr ⟨hout.lines, ?_⟩, ?_⟩
    · rw [hstop, ← hs'.rest]
      exact fun ht => (hword ht).1
    · intro u hu hu' _
      rw [hstart]
      exact (hout.last u hu hu').2.2
    · intro u hu hu'
      obtain rfl : t = u := Option.some.inj (List.getLast?_concat.symm.trans hu)
      refine ⟨(hword hu').2, hstop.le, ?_⟩
      rw [hstop, slice_self]
      exact List.not_mem_nil
  · rw [List.append_nil]
    refine ⟨k', hs', hout.words, hout.lines, fun t ht ht' => ?_⟩
    obtain ⟨hused, hle, hfree⟩ := hout.last t ht ht'
    refine ⟨h.used_eq.trans hused, hle.trans hkk, ?_⟩
    rw [← slice_append hle hkk, List.mem_append, not_or]
    refine ⟨hfree, fun hmem => ?_⟩
    cases (hline hmem).symm.trans hused

theorem Run.arranged {source : String} (h : Run (start path source) ts s) :
    ∃ k, At path source.toList k s ∧ Arranged source.toList k s.used ts := by
  refine h.invariant (I := fun out s => ∃ k, At path source.toList k s ∧
    Arranged source.toList k s.used out) ⟨0, at_start path source, ?_⟩ ?_
  · exact ⟨List.forall_mem_nil _, .nil, by simp⟩
  · rintro out s ts s' ⟨k, hs, hout⟩ hstep
    exact hstep.arranged hs hout

/-- At the end of the text there are no more words. -/
theorem not_isWord_of_mem_closing (s : Scanner) : ∀ t ∈ s.closing, ¬t.IsWord := by
  unfold closing lineEnd Token.IsWord
  cases s.used <;> simp

end Scanner

/-! ### Tokens of a text -/

/-- If the tokens are words then there are only blanks between them. -/
def Blanks (text : List Char) (t u : Token) : Prop :=
  t.IsWord → u.IsWord → ∀ c ∈ slice text t.span.stop.offset u.span.start.offset, isBlank c = true

/-- Consecutive tokens of a text. -/
structure Laid (path : String) (text : List Char) (ts : List Token) : Prop where
  placed : ∀ t ∈ ts, t.Placed path text
  ordered : ts.Pairwise fun t u => t.span.stop.offset ≤ u.span.start.offset
  words : ∀ t ∈ ts, t.IsWord → Word t.kind t.lexeme.toList (text.drop t.span.stop.offset)
  blanks : ts.IsChain (Blanks text)

theorem Laid.mono {ts us : List Token} (h : Laid path text ts) (hus : us <:+: ts) :
    Laid path text us where
  placed := fun t ht => h.placed t (hus.subset ht)
  ordered := h.ordered.sublist hus.sublist
  words := fun t ht => h.words t (hus.subset ht)
  blanks := List.IsChain.infix h.blanks hus

/-- A word begins with no end of a line. -/
theorem Word.head_append {kind : Token.Kind} {w rest : List Char} (h : Word kind w rest) :
    ∃ c, (w ++ rest).head? = some c ∧ c ≠ '\n' := by
  obtain ⟨c, cs, rfl⟩ := List.exists_cons_of_ne_nil h.ne_nil
  exact ⟨c, rfl, h.head.1⟩

/-- A colon is written in one way only. -/
theorem Word.eq_colon {w rest : List Char} (h : Word .colon w rest) : w = [':'] := by
  generalize hkind : Token.Kind.colon = kind at h
  cases h with
  | name _ _ _ =>
    unfold Token.Kind.ofWord at hkind
    split at hkind <;> cases hkind
  | number _ _ _ => cases hkind
  | negative _ _ _ => cases hkind
  | text _ => cases hkind
  | mark h =>
    subst hkind
    unfold Token.Kind.ofChar? at h
    split at h <;> cases h
    rfl

/-- The words of a text are words where they stand, and no line ends between two of them unless
there is a token for it. -/
theorem lex_arranged {source : String} {tokens : List Token} (h : lex path source = .ok tokens) :
    (∀ t ∈ tokens, t.IsWord →
        Word t.kind t.lexeme.toList (source.toList.drop t.span.stop.offset)) ∧
      tokens.IsChain (OneLine source.toList) := by
  obtain ⟨ts, s, hrun, -, rfl⟩ := lex_eq_ok_iff.mp h
  obtain ⟨k, -, hts⟩ := hrun.arranged
  have hclosing := s.not_isWord_of_mem_closing
  refine ⟨fun t ht hword => ?_, List.isChain_append.mpr ⟨hts.lines, ?_, ?_⟩⟩
  · rcases List.mem_append.mp ht with ht | ht
    · exact hts.words t ht hword
    · exact absurd hword (hclosing t ht)
  · refine List.Pairwise.isChain (List.pairwise_of_forall_mem_list fun t ht u _ ht' => ?_)
    exact absurd ht' (hclosing t ht)
  · intro t _ u hu _ hu'
    exact absurd hu' (hclosing u (List.mem_of_mem_head? hu))

/-- **The tokens of a text are laid out in it.** -/
theorem lex_laid {source : String} {tokens : List Token} (h : lex path source = .ok tokens) :
    Laid path source.toList tokens := by
  obtain ⟨-, -, -, hcovered, -⟩ := lex_tiled h
  obtain ⟨hwords, hlines⟩ := lex_arranged h
  have hgaps : tokens.IsChain fun t u => Apart source.toList t.span u.span := by
    refine (List.isChain_map Token.span).mp ( List.IsChain.infix hcovered.gaps ?_)
    exact ⟨[_], [_], rfl⟩
  refine ⟨hcovered.placed, hcovered.ordered, hwords, List.isChain_iff_getElem.mpr fun i hi => ?_⟩
  -- the gap between two words ends before a word, so it is not followed by the end of a line
  intro ht hu
  have hfree := List.isChain_iff_getElem.mp hlines i hi ht hu
  obtain ⟨-, hgap⟩ := List.isChain_iff_getElem.mp hgaps i hi
  refine (hgap.blank_or_end hfree).resolve_right fun hend => ?_
  have hmem : tokens[i + 1] ∈ tokens := List.getElem_mem _
  have hplaced := hcovered.placed _ hmem
  obtain ⟨c, hc, hne⟩ := (hwords _ hmem hu).head_append
  rw [hplaced.lexeme, slice_append_drop hplaced.forward] at hc
  exact hne (hend c hc)

/-! ### Extents -/

/-- The span reaches from the first of the tokens to the last. -/
structure Extent (ts : List Token) (span : Span) : Prop where
  head : ∃ t, ts.head? = some t ∧ t.span.start = span.start
  last : ∃ t, ts.getLast? = some t ∧ t.span.stop = span.stop

namespace Extent

variable {ts us : List Token} {a b : Span}

theorem single (t : Token) : Extent [t] t.span :=
  ⟨⟨t, rfl, rfl⟩, ⟨t, rfl, rfl⟩⟩

/-- Tokens in the middle do not matter. -/
theorem around {vs : List Token} (hts : Extent ts a) (hvs : Extent vs b) (us : List Token) :
    Extent (ts ++ (us ++ vs)) (a.join b) := by
  obtain ⟨t, ht, hstart⟩ := hts.head
  obtain ⟨v, hv, hstop⟩ := hvs.last
  refine ⟨⟨t, ?_, hstart⟩, ⟨v, ?_, hstop⟩⟩
  · rw [List.head?_append, ht, Option.some_or]
  · rw [← List.append_assoc, List.getLast?_append, hv, Option.some_or]

theorem append (hts : Extent ts a) (hus : Extent us b) : Extent (ts ++ us) (a.join b) :=
  hts.around hus []

theorem cons (t : Token) (hus : Extent us b) : Extent (t :: us) (t.span.join b) :=
  (single t).append hus

/-- What comes later begins behind the end. -/
theorem before (hts : Extent ts a) (hus : Extent us b)
    (h : ∀ t ∈ ts, ∀ u ∈ us, t.span.stop.offset ≤ u.span.start.offset) : a.Before b := by
  obtain ⟨t, ht, hstop⟩ := hts.last
  obtain ⟨u, hu, hstart⟩ := hus.head
  rw [Span.Before, ← hstop, ← hstart]
  exact h t (List.mem_of_getLast? ht) u (List.mem_of_head? hu)

end Extent

namespace Laid

variable {ts us : List Token} {a b : Span}

/-- All tokens lie between the start of the first and the end of the last. -/
theorem bounds (h : Laid path text ts) (ha : Extent ts a) {t : Token} (ht : t ∈ ts) :
    a.start.offset ≤ t.span.start.offset ∧ t.span.stop.offset ≤ a.stop.offset := by
  obtain ⟨first, hfirst, hstart⟩ := ha.head
  obtain ⟨last, hlast, hstop⟩ := ha.last
  rw [← hstart, ← hstop]
  constructor
  · obtain ⟨rest, rfl⟩ := List.head?_eq_some_iff.mp hfirst
    rcases List.mem_cons.mp ht with rfl | ht
    · exact Nat.le_refl _
    · have hforward := (h.placed first List.mem_cons_self).forward
      exact hforward.trans ((List.pairwise_cons.mp h.ordered).1 t ht)
  · obtain ⟨front, rfl⟩ := List.getLast?_eq_some_iff.mp hlast
    rcases List.mem_append.mp ht with ht' | ht'
    · have hforward := (h.placed last (by simp)).forward
      exact ((List.pairwise_append.mp h.ordered).2.2 t ht' last (by simp)).trans hforward
    · rw [List.mem_singleton.mp ht']

/-- **Some of the tokens reach no further than all of them.** -/
theorem inside (h : Laid path text ts) (ha : Extent ts a) (hus : us <:+: ts) (hb : Extent us b) :
    b.Inside a := by
  obtain ⟨first, hfirst, hstart⟩ := hb.head
  obtain ⟨last, hlast, hstop⟩ := hb.last
  have hmem := List.mem_of_getLast? hlast
  have hforward := ((h.mono hus).bounds hb (List.mem_of_head? hfirst)).2
  refine ⟨?_, ?_, ?_⟩
  · rw [← hstart]
    exact (h.bounds ha (hus.subset (List.mem_of_head? hfirst))).1
  · rw [← hstart]
    exact ((h.mono hus).placed first (List.mem_of_head? hfirst)).forward.trans hforward
  · rw [← hstop]
    exact (h.bounds ha (hus.subset hmem)).2

/-- What tokens reach over begins with the first of them. -/
theorem cons_chars {t : Token} (h : Laid path text (t :: us)) (ha : Extent (t :: us) a) :
    a.chars text = t.lexeme.toList ++ slice text t.span.stop.offset a.stop.offset := by
  obtain ⟨u, hhead, hstart⟩ := ha.head
  obtain rfl : t = u := Option.some.inj hhead
  have hplaced := h.placed t List.mem_cons_self
  have hle := (h.bounds ha List.mem_cons_self).2
  rw [Span.chars, ← hstart, hplaced.lexeme, slice_append hplaced.forward hle]

/-- The first of the tokens is a word also if the text ends with the last of them. -/
theorem cons_word {t : Token} (h : Laid path text (t :: us)) (ha : Extent (t :: us) a)
    (ht : t.IsWord) : Word t.kind t.lexeme.toList (slice text t.span.stop.offset a.stop.offset) := by
  have hword := h.words t List.mem_cons_self ht
  rw [← slice_append_drop (h.bounds ha List.mem_cons_self).2] at hword
  exact hword.cut

/-- Words without the end of a line between them spell what they reach over. -/
theorem spells (h : Laid path text ts) (hwords : ∀ t ∈ ts, t.IsWord) (ha : Extent ts a) :
    Spells (a.chars text) (ts.map Token.content) := by
  induction ts generalizing a with
  | nil =>
    obtain ⟨⟨_, hhead, -⟩, -⟩ := ha
    cases hhead
  | cons t us ih =>
    -- behind the first word there is nothing, or blanks up to the next one
    have hrest : Spells (slice text t.span.stop.offset a.stop.offset) (us.map Token.content) := by
      cases us with
      | nil =>
        obtain ⟨-, ⟨u, hlast, hstop⟩⟩ := ha
        obtain rfl : t = u := Option.some.inj hlast
        rw [hstop, slice_self]
        exact .nil
      | cons u us =>
        have hext : Extent (u :: us) ⟨u.span.start, a.stop⟩ :=
          ⟨⟨u, rfl, rfl⟩, by simpa using ha.last⟩
        have hlaid := h.mono (List.suffix_cons t (u :: us)).isInfix
        have hus := ih hlaid (List.forall_mem_cons.mp hwords).2 hext
        have hblanks := (List.isChain_cons_cons.mp h.blanks).1 (hwords t (by simp))
          (hwords u (by simp))
        have hnext := (List.pairwise_cons.mp h.ordered).1 u List.mem_cons_self
        have hend : u.span.start.offset ≤ a.stop.offset :=
          (hlaid.placed u List.mem_cons_self).forward.trans (hlaid.bounds hext List.mem_cons_self).2
        rw [← slice_append hnext hend]
        exact hus.blanks hblanks
    have hspells := Spells.word (h.cons_word ha (hwords t List.mem_cons_self)) hrest
    rwa [String.ofList_toList, ← h.cons_chars ha] at hspells

/-- **The text that words of one line reach over has these words.** -/
theorem lex_chars (h : Laid path text ts) (hwords : ∀ t ∈ ts, t.IsWord) (ha : Extent ts a) :
    ∃ again, lex path (String.ofList (a.chars text)) = .ok again ∧
      (again.filter fun t => t.IsWord).map Token.content = ts.map Token.content := by
  obtain ⟨us, p, hrun, hus⟩ := (h.spells hwords ha).run_last (.first path)
  have hstart : Scanner.start path (String.ofList (a.chars text))
      = ⟨.first path, false, a.chars text⟩ := by
    rw [Scanner.start, String.toList_ofList]
  refine ⟨_, lex_eq_ok_iff.mpr ⟨us, _, hstart ▸ hrun, rfl, rfl⟩, ?_⟩
  have hinner : ∀ u ∈ us, decide u.IsWord = true := by
    intro u hu
    obtain ⟨t, ht, hcontent⟩ := List.mem_map.mp (hus ▸ List.mem_map_of_mem hu)
    have hkind : t.kind = u.kind := congrArg Prod.fst hcontent
    rw [decide_eq_true_eq, Token.IsWord, ← hkind]
    exact hwords t ht
  have hclosing : ∀ used, (Scanner.closing ⟨p, used, []⟩).filter (fun t => t.IsWord) = [] := by
    intro used
    cases used <;> rfl
  rw [List.filter_append, List.filter_eq_self.mpr hinner, hclosing, List.append_nil, hus]

/-- A colon and a name reach over themselves and blanks between them. -/
theorem label_chars {colon name : Token} (h : Laid path text [colon, name])
    (hcolon : colon.kind = .colon) (hname : name.kind = .ident) :
    ∃ gap, (∀ c ∈ gap, isBlank c = true) ∧
      (colon.span.join name.span).chars text = ':' :: gap ++ name.lexeme.toList := by
  have hwords : colon.IsWord ∧ name.IsWord := by
    simp [Token.IsWord, hcolon, hname]
  have hfirst := h.placed colon (by simp)
  have hlast := h.placed name (by simp)
  have hnext := (List.pairwise_cons.mp h.ordered).1 name (by simp)
  have hmark : colon.lexeme.toList = [':'] := by
    have hword := h.words colon (by simp) hwords.1
    rw [hcolon] at hword
    exact hword.eq_colon
  refine ⟨_, (List.isChain_cons_cons.mp h.blanks).1 hwords.1 hwords.2, ?_⟩
  rw [← List.singleton_append, ← hmark, hfirst.lexeme, hlast.lexeme,
    slice_append hfirst.forward hnext, slice_append (hfirst.forward.trans hnext) hlast.forward]
  rfl

end Laid

end Vapor
