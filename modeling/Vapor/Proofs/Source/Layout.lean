/-
Vapor/Proofs/Source/Layout.lean

The tokens of a text do not depend on its layout (`lex_layout`): whatever blanks, comments
and empty lines a text puts between the words of another one, it has the same words on the
same lines.

What a single line spells is said by `Spells`, which goes through the line piece by piece.
A piece is there whatever stands further down, so the reader follows it (`Spells.run`), and a
whole text is read line by line.  It remains to see that the words of any text that has been
read are words in any other place where nothing can go on with them, which is
`Word.before`.
-/
import Vapor.Proofs.Source.Scanning

namespace Vapor

/-- What a token says apart from its place. -/
def Token.content (t : Token) : Token.Kind × String :=
  (t.kind, t.lexeme)

open Scanner

/-! ### Lines -/

/-- The characters of a line, without its end, spell these words. -/
inductive Spells : List Char → List (Token.Kind × String) → Prop where
  | nil : Spells [] []
  | comment {text : List Char} (htext : '\n' ∉ text) : Spells ('/' :: '/' :: text) []
  | blank {c : Char} {cs : List Char} {ws : List (Token.Kind × String)} (hc : isBlank c = true)
      (h : Spells cs ws) : Spells (c :: cs) ws
  | word {kind : Token.Kind} {w cs : List Char} {ws : List (Token.Kind × String)}
      (hw : Word kind w cs) (h : Spells cs ws) : Spells (w ++ cs) ((kind, String.ofList w) :: ws)

/-- Whether a word goes on is decided by the first character behind it. -/
theorem Word.congr_head {kind : Token.Kind} {w rest rest' : List Char} (h : Word kind w rest)
    (hhead : rest'.head? = rest.head?) : Word kind w rest' := by
  cases h with
  | name hc hcs hrest => exact .name hc hcs (hhead ▸ hrest)
  | number hc hcs hrest => exact .number hc hcs (hhead ▸ hrest)
  | negative hc hcs hrest => exact .negative hc hcs (hhead ▸ hrest)
  | text h => exact .text h
  | mark h => exact .mark h

/-- A word of a line is a word of the line with more behind it. -/
theorem Word.append {kind : Token.Kind} {w cs rest : List Char} (h : Word kind w cs)
    (hrest : ∀ c ∈ rest.head?, isIdentPart c = false) : Word kind w (cs ++ rest) := by
  cases cs with
  | nil => exact h.before hrest
  | cons c cs => exact h.congr_head rfl

theorem isIdentPart_of_isBlank {c : Char} (hc : isBlank c = true) : isIdentPart c = false := by
  simp only [isBlank, Bool.or_eq_true, beq_iff_eq] at hc
  rcases hc with (rfl | rfl) | rfl <;> decide

namespace Spells

variable {cs rest : List Char} {ws : List (Token.Kind × String)}

/-- A line without words begins with nothing that a name could go on with. -/
theorem head_of_nil (h : Spells cs []) : ∀ c ∈ cs.head?, isIdentPart c = false := by
  cases h with
  | nil => exact nofun
  | comment _ =>
    rintro _ ⟨⟩
    decide
  | blank hc _ =>
    rintro _ ⟨⟩
    exact isIdentPart_of_isBlank hc

theorem blanks {bs : List Char} (hbs : ∀ c ∈ bs, isBlank c = true) (h : Spells cs ws) :
    Spells (bs ++ cs) ws := by
  induction bs with
  | nil => exact h
  | cons c bs ih =>
    rw [List.forall_mem_cons] at hbs
    exact .blank hbs.1 (ih hbs.2)

/-- A blank at the end of a line makes no difference. -/
theorem concat {c : Char} (hc : isBlank c = true) (h : Spells cs ws) : Spells (cs ++ [c]) ws := by
  induction h with
  | nil => exact .blank hc .nil
  | @comment text htext =>
    refine .comment ?_
    have hline := Ne.symm (ne_newline_of_isBlank hc)
    simp [htext, hline]
  | blank hd _ ih => exact .blank hd ih
  | @word kind w cs ws hw _ ih =>
    rw [List.append_assoc]
    refine .word (hw.append ?_) ih
    rintro _ ⟨⟩
    exact isIdentPart_of_isBlank hc

/-- The reader finds the words of a line. -/
theorem run (h : Spells cs ws) (hrest : ∀ c ∈ rest.head?, c = '\n') (p : Pos) (used : Bool) :
    ∃ ts p', Run ⟨p, used, cs ++ rest⟩ ts ⟨p', used || !ws.isEmpty, rest⟩ ∧
      ts.map Token.content = ws := by
  induction h generalizing p used with
  | nil => exact ⟨[], p, by simpa using Run.refl, rfl⟩
  | comment htext => exact ⟨_, _, by simpa using Run.step (.comment htext hrest) .refl, rfl⟩
  | blank hc _ ih =>
    obtain ⟨ts, p', hrun, hts⟩ := ih (p.right 1) used
    exact ⟨ts, p', .step (.blank hc) hrun, hts⟩
  | @word kind w cs ws hw _ ih =>
    obtain ⟨ts, p', hrun, hts⟩ := ih (p.right w.length) true
    have hw' : Word kind w (cs ++ rest) := by
      refine hw.append fun c hc => ?_
      rw [hrest c hc]
      decide
    rw [List.append_assoc]
    refine ⟨_, p', .step (.word hw') (by simpa using hrun), ?_⟩
    simp [hts, Token.content]

/-- What comes out of a line: its words and, if there are any, its end. -/
def withEnd (ws : List (Token.Kind × String)) : List (Token.Kind × String) :=
  if ws.isEmpty then [] else ws ++ [(.newline, "\n")]

/-- The reader goes from line to line. -/
theorem run_line (h : Spells cs ws) (p : Pos) (rest : List Char) :
    ∃ ts p', Run ⟨p, false, cs ++ '\n' :: rest⟩ ts ⟨p', false, rest⟩ ∧
      ts.map Token.content = withEnd ws := by
  have hline : ∀ c ∈ ('\n' :: rest).head?, c = '\n' := by
    rintro _ ⟨⟩
    rfl
  obtain ⟨ts, p', hrun, hts⟩ := h.run hline p false
  refine ⟨_, _, hrun.trans (.step .newline .refl), ?_⟩
  unfold withEnd lineEnd
  cases ws <;> simp [hts, Token.content]

/-- The last line ends with the text. -/
theorem run_last (h : Spells cs ws) (p : Pos) :
    ∃ ts p', Run ⟨p, false, cs⟩ ts ⟨p', !ws.isEmpty, []⟩ ∧ ts.map Token.content = ws := by
  have hend : ∀ c ∈ ([] : List Char).head?, c = '\n' := by simp
  obtain ⟨ts, p', hrun, hts⟩ := h.run hend p false
  rw [List.append_nil, Bool.false_or] at hrun
  exact ⟨ts, p', hrun, hts⟩

end Spells

/-! ### Layouts -/

/-- Nothing, or a comment. -/
inductive Remark : List Char → Prop where
  | none : Remark []
  | comment {text : List Char} (htext : '\n' ∉ text) : Remark ('/' :: '/' :: text)

/-- The lexemes of one or more tokens, with blanks between them. -/
inductive Spaced : List Token → List Char → Prop where
  | one {t : Token} : Spaced [t] t.lexeme.toList
  | cons {t : Token} {ts : List Token} {gap cs : List Char} (hgap : ∀ c ∈ gap, isBlank c = true)
      (hne : gap ≠ []) (h : Spaced ts cs) : Spaced (t :: ts) (t.lexeme.toList ++ (gap ++ cs))

/-- A line on which these tokens are written, without its end. -/
inductive LineLayout : List Token → List Char → Prop where
  | empty {gap remark : List Char} (hgap : ∀ c ∈ gap, isBlank c = true) (hremark : Remark remark) :
      LineLayout [] (gap ++ remark)
  | words {ts : List Token} {before cs after remark : List Char}
      (hinner : ∀ t ∈ ts, t.kind ≠ .newline ∧ t.kind ≠ .eof)
      (hbefore : ∀ c ∈ before, isBlank c = true) (h : Spaced ts cs)
      (hafter : ∀ c ∈ after, isBlank c = true) (hremark : Remark remark) :
      LineLayout ts (before ++ (cs ++ (after ++ remark)))

/-- What ends a line. -/
inductive LineBreak : List Char → Prop where
  | lf : LineBreak ['\n']
  | crlf : LineBreak ['\r', '\n']

/-- A text in which these tokens are written, one line for each newline token, with any number
of lines without tokens.  The end of the last line may be missing. -/
inductive Layout : List Token → List Char → Prop where
  | last {stop : Token} {cs : List Char} (hstop : stop.kind = .eof) (h : LineLayout [] cs) :
      Layout [stop] cs
  | lastLine {ts : List Token} {newline stop : Token} {cs : List Char} (hts : ts ≠ [])
      (hnewline : newline.kind = .newline) (hstop : stop.kind = .eof) (h : LineLayout ts cs) :
      Layout (ts ++ [newline, stop]) cs
  | blank {ts : List Token} {cs br rest : List Char} (h : LineLayout [] cs) (hbr : LineBreak br)
      (hrest : Layout ts rest) : Layout ts (cs ++ (br ++ rest))
  | line {ts us : List Token} {newline : Token} {cs br rest : List Char} (hts : ts ≠ [])
      (hnewline : newline.kind = .newline) (h : LineLayout ts cs) (hbr : LineBreak br)
      (hrest : Layout us rest) : Layout (ts ++ newline :: us) (cs ++ (br ++ rest))

/-- Kinds and lexemes of tokens, where the last newline token counts as one without characters. -/
def outline : List Token → List (Token.Kind × String)
  | [] => []
  | t :: ts =>
    (t.kind, if t.kind = .newline ∧ ∀ u ∈ ts, u.kind ≠ .newline then "" else t.lexeme) :: outline ts

theorem outline_append {ts us : List Token} (h : ∀ w ∈ ts.map Token.content, w.1 ≠ .newline) :
    outline (ts ++ us) = ts.map Token.content ++ outline us := by
  induction ts with
  | nil => rfl
  | cons t ts ih =>
    rw [List.map_cons, List.forall_mem_cons] at h
    have ht : ¬(t.kind = .newline ∧ ∀ u ∈ ts ++ us, u.kind ≠ .newline) := fun ht => h.1 ht.1
    rw [List.cons_append, outline, if_neg ht, ih h.2]
    rfl

theorem exists_newline_iff_of_outline {ts us : List Token} (h : outline ts = outline us) :
    (∃ t ∈ ts, t.kind = .newline) ↔ ∃ u ∈ us, u.kind = .newline := by
  have hkinds : ∀ ts, (outline ts).map Prod.fst = ts.map Token.kind := by
    intro ts
    induction ts with
    | nil => rfl
    | cons t ts ih => rw [outline, List.map_cons, ih, List.map_cons]
  rw [← List.mem_map, ← List.mem_map, ← hkinds, h, hkinds]

/-- Tokens that may stand in a text: words, and ends of lines and of the text.  The end of a
line before another one has a line feed. -/
structure Genuine (tokens : List Token) : Prop where
  words : ∀ t ∈ tokens, t.kind ≠ .newline ∧ t.kind ≠ .eof → ∃ rest, Word t.kind t.lexeme.toList rest
  eof : ∀ t ∈ tokens, t.kind = .eof → t.lexeme = ""
  newlines : tokens.Pairwise fun t u => t.kind = .newline → u.kind = .newline → t.lexeme = "\n"

theorem Genuine.mono {ts us : List Token} (h : Genuine ts) (hsub : us.Sublist ts) : Genuine us where
  words := fun t ht => h.words t (hsub.subset ht)
  eof := fun t ht => h.eof t (hsub.subset ht)
  newlines := h.newlines.sublist hsub

/-- The token has characters: it is a word, or a line feed. -/
def Token.Visible (t : Token) : Prop :=
  t.kind = .newline ∧ t.lexeme = "\n" ∨ ∃ rest, Word t.kind t.lexeme.toList rest

theorem Scanner.Step.visible {s s' : Scanner} {ts : List Token} (h : Step s ts s') :
    ∀ t ∈ ts, t.Visible := by
  cases h with
  | @newline p used rest =>
    cases used with
    | true =>
      intro t ht
      obtain rfl := List.mem_singleton.mp ht
      exact .inl ⟨rfl, rfl⟩
    | false => exact List.forall_mem_nil _
  | blank _ => exact List.forall_mem_nil _
  | comment _ _ => exact List.forall_mem_nil _
  | @word p used kind w rest hw =>
    intro t ht
    obtain rfl := List.mem_singleton.mp ht
    exact .inr ⟨rest, by rwa [String.toList_ofList]⟩

theorem Scanner.Run.visible {s s' : Scanner} {ts : List Token} (h : Run s ts s') :
    ∀ t ∈ ts, t.Visible := by
  apply h.invariant (I := fun out _ => ∀ t ∈ out, t.Visible) (List.forall_mem_nil _)
  intro out us s s' hout hstep t ht
  rcases List.mem_append.mp ht with ht | ht
  · exact hout t ht
  · exact hstep.visible t ht

theorem Token.Visible.ne_eof {t : Token} (h : t.Visible) : t.kind ≠ .eof := by
  rcases h with ⟨hkind, -⟩ | ⟨rest, hword⟩
  · simp [hkind]
  · exact hword.kind_ne.2

/-- The end of the text is the last token, and no other. -/
theorem exists_eof_of_lex {path source : String} {tokens : List Token}
    (h : lex path source = .ok tokens) :
    ∃ body stop, tokens = body ++ [stop] ∧ stop.kind = .eof ∧ ∀ t ∈ body, t.kind ≠ .eof := by
  obtain ⟨ts, s, hrun, -, rfl⟩ := lex_eq_ok_iff.mp h
  unfold closing
  rw [← List.append_assoc]
  refine ⟨_, _, rfl, rfl, fun t ht => ?_⟩
  rcases List.mem_append.mp ht with ht | ht
  · exact (hrun.visible t ht).ne_eof
  · unfold lineEnd at ht
    split at ht
    · simp [List.mem_singleton.mp ht]
    · exact absurd ht List.not_mem_nil

theorem lex_genuine {path source : String} {tokens : List Token}
    (h : lex path source = .ok tokens) : Genuine tokens := by
  obtain ⟨ts, s, hrun, -, rfl⟩ := lex_eq_ok_iff.mp h
  have hts := hrun.visible
  have hclosing : ∀ t ∈ s.closing, t.kind = .newline ∨ t.kind = .eof ∧ t.lexeme = "" := by
    unfold closing lineEnd
    cases s.used <;> simp
  have hlast : s.closing.Pairwise fun t u => ¬(t.kind = .newline ∧ u.kind = .newline) := by
    unfold closing lineEnd
    cases s.used <;> simp
  refine ⟨fun t ht hinner => ?_, fun t ht hkind => ?_, ?_⟩
  · rcases List.mem_append.mp ht with ht | ht
    · rcases hts t ht with hnewline | hword
      · exact absurd hnewline.1 hinner.1
      · exact hword
    · rcases hclosing t ht with hnewline | heof
      · exact absurd hnewline hinner.1
      · exact absurd heof.1 hinner.2
  · rcases List.mem_append.mp ht with ht | ht
    · exact absurd hkind (hts t ht).ne_eof
    · rcases hclosing t ht with hnewline | heof
      · exact nomatch hkind.symm.trans hnewline
      · exact heof.2
  · have hnewlines : ∀ t ∈ ts, t.kind = .newline → t.lexeme = "\n" := by
      intro t ht hkind
      rcases hts t ht with hnewline | ⟨rest, hword⟩
      · exact hnewline.2
      · exact absurd hkind hword.kind_ne.1
    refine List.pairwise_append.mpr ⟨?_, ?_, fun t ht u hu hkind _ => hnewlines t ht hkind⟩
    · exact List.pairwise_of_forall_mem_list fun t ht u hu hkind _ => hnewlines t ht hkind
    · exact hlast.imp fun hne ht hu => absurd ⟨ht, hu⟩ hne

/-! ### Reading a layout -/

theorem Remark.spells {cs : List Char} (h : Remark cs) : Spells cs [] := by
  cases h with
  | none => exact .nil
  | comment htext => exact .comment htext

/-- Lexemes with blanks between them spell the words they are. -/
theorem Spaced.spells {ts : List Token} {cs tail : List Char} (h : Spaced ts cs)
    (hwords : ∀ t ∈ ts, ∃ rest, Word t.kind t.lexeme.toList rest) (htail : Spells tail []) :
    Spells (cs ++ tail) (ts.map Token.content) := by
  have hcontent : ∀ t : Token, t.content = (t.kind, String.ofList t.lexeme.toList) := by
    intro t
    rw [String.ofList_toList]
    rfl
  induction h with
  | @one t =>
    obtain ⟨rest, hw⟩ := hwords t List.mem_cons_self
    rw [List.map_singleton, hcontent]
    exact .word (hw.before htail.head_of_nil) htail
  | @cons t ts gap cs hgap hne _ ih =>
    rw [List.forall_mem_cons] at hwords
    obtain ⟨⟨rest, hw⟩, hwords⟩ := hwords
    rw [List.map_cons, hcontent, List.append_assoc, List.append_assoc]
    refine .word (hw.before ?_) ((ih hwords).blanks hgap)
    obtain ⟨c, gap, rfl⟩ := List.exists_cons_of_ne_nil hne
    rintro _ ⟨⟩
    exact isIdentPart_of_isBlank (hgap c List.mem_cons_self)

theorem LineLayout.spells {ts : List Token} {cs : List Char} (h : LineLayout ts cs)
    (hts : Genuine ts) : Spells cs (ts.map Token.content) := by
  cases h with
  | empty hgap hremark => exact hremark.spells.blanks hgap
  | words hinner hbefore h hafter hremark =>
    refine (h.spells (fun t ht => hts.words t ht (hinner t ht)) ?_).blanks hbefore
    exact hremark.spells.blanks hafter

theorem LineLayout.inner {ts : List Token} {cs : List Char} (h : LineLayout ts cs) :
    ∀ w ∈ ts.map Token.content, w.1 ≠ .newline := by
  intro w hw
  obtain ⟨t, ht, rfl⟩ := List.mem_map.mp hw
  cases h with
  | empty _ _ => cases ht
  | words hinner => exact (hinner t ht).1

/-- The reader goes from line to line, whichever way they end. -/
theorem LineLayout.run {ts : List Token} {cs br : List Char} (h : LineLayout ts cs)
    (hts : Genuine ts) (hbr : LineBreak br) (p : Pos) (rest : List Char) :
    ∃ us p', Run ⟨p, false, cs ++ (br ++ rest)⟩ us ⟨p', false, rest⟩ ∧
      us.map Token.content = Spells.withEnd (ts.map Token.content) := by
  have hspells := h.spells hts
  cases hbr with
  | lf => exact hspells.run_line p rest
  | crlf =>
    -- the carriage return is a blank, or part of the comment
    have hline := (hspells.concat (c := '\r') (by decide)).run_line p rest
    rwa [List.append_assoc] at hline

theorem Layout.run {tokens : List Token} {cs : List Char} (h : Layout tokens cs)
    (htokens : Genuine tokens) (p : Pos) :
    ∃ ts s, Run ⟨p, false, cs⟩ ts s ∧ s.rest = [] ∧ outline (ts ++ s.closing) = outline tokens := by
  induction h generalizing p with
  | @last stop cs hstop h =>
    obtain ⟨ts, p', hrun, hts⟩ := (h.spells (htokens.mono (List.nil_sublist _))).run_last p
    obtain rfl := List.map_eq_nil_iff.mp hts
    have heof := htokens.eof stop List.mem_cons_self hstop
    refine ⟨[], _, hrun, rfl, ?_⟩
    simp [outline, closing, lineEnd, hstop, heof]
  | @lastLine ts newline stop cs hne hnewline hstop h =>
    have hline : Genuine ts := htokens.mono (List.sublist_append_left _ _)
    obtain ⟨us, p', hrun, hus⟩ := (h.spells hline).run_last p
    have heof := htokens.eof stop (by simp) hstop
    refine ⟨us, _, hrun, rfl, ?_⟩
    rw [outline_append (hus ▸ h.inner), outline_append h.inner, hus]
    simp [outline, closing, lineEnd, hne, hnewline, hstop, heof]
  | @blank ts cs br rest h hbr _ ih =>
    obtain ⟨us, p', hrun, hus⟩ := h.run (htokens.mono (List.nil_sublist _)) hbr p rest
    obtain rfl := List.map_eq_nil_iff.mp hus
    obtain ⟨vs, s, hrun', hend, houtline⟩ := ih htokens p'
    exact ⟨vs, s, hrun.trans hrun', hend, houtline⟩
  | @line ts us newline cs br rest hne hnewline h hbr _ ih =>
    have hline : Genuine ts := htokens.mono (List.sublist_append_left _ _)
    have hlater : (newline :: us).Sublist (ts ++ newline :: us) := List.sublist_append_right _ _
    obtain ⟨hfeed, hlater⟩ : (∀ u ∈ us, u.kind = .newline → newline.lexeme = "\n") ∧ Genuine us := by
      refine ⟨fun u hu hkind => ?_, htokens.mono ((List.sublist_cons_self _ _).trans hlater)⟩
      exact List.rel_of_pairwise_cons (htokens.newlines.sublist hlater) hu hnewline hkind
    obtain ⟨vs, p', hrun, hvs⟩ := h.run hline hbr p rest
    obtain ⟨ws, s, hrun', hend, houtline⟩ := ih hlater p'
    -- the end of the line is a token as well
    rw [Spells.withEnd, if_neg (by simpa using hne)] at hvs
    obtain ⟨vs, last, rfl, hwords, hlast⟩ := List.map_eq_append_iff.mp hvs
    obtain ⟨newline', rfl, hnewline'⟩ := List.map_eq_singleton_iff.mp hlast
    obtain ⟨hkind, hlexeme⟩ := Prod.mk.inj hnewline'
    refine ⟨_, s, hrun.trans hrun', hend, ?_⟩
    rw [List.append_assoc, List.append_assoc, outline_append (hwords ▸ h.inner),
      outline_append h.inner, hwords, List.singleton_append, outline, outline, houtline]
    have hiff := exists_newline_iff_of_outline houtline
    by_cases hmore : ∃ u ∈ us, u.kind = .newline
    · obtain ⟨u, hu, hukind⟩ := hmore
      obtain ⟨v, hv, hvkind⟩ := hiff.mpr ⟨u, hu, hukind⟩
      rw [if_neg fun hnone => hnone.2 v hv hvkind, if_neg fun hnone => hnone.2 u hu hukind,
        hkind, hlexeme, hnewline, hfeed u hu hukind]
    · -- it is the last one in either text
      have hnone : ∀ u ∈ us, u.kind ≠ .newline := fun u hu hukind => hmore ⟨u, hu, hukind⟩
      have hnone' : ∀ v ∈ ws ++ s.closing, v.kind ≠ .newline :=
        fun v hv hvkind => hmore (hiff.mp ⟨v, hv, hvkind⟩)
      rw [if_pos ⟨hkind, hnone'⟩, if_pos ⟨hnewline, hnone⟩, hkind, hnewline]

/-- **The tokens of a text do not depend on its layout.** -/
theorem lex_layout {path path' source source' : String} {tokens : List Token}
    (h : lex path source = .ok tokens) (hlayout : Layout tokens source'.toList) :
    ∃ tokens', lex path' source' = .ok tokens' ∧ outline tokens' = outline tokens := by
  obtain ⟨ts, s, hrun, hend, houtline⟩ := hlayout.run (lex_genuine h) (.first path')
  exact ⟨_, lex_eq_ok_iff.mpr ⟨ts, s, hrun, hend, rfl⟩, houtline⟩

namespace Sample

/-- Two lines with a string that looks like a comment, and no line feed at the end. -/
def plain : String :=
  "x = \"a//b\"\nret -12"

/-- A token at an offset of the text, in the given line and column. -/
def plainToken (kind : Token.Kind) (lexeme : String) (offset line column : Nat) : Token :=
  let p : Pos := ⟨"plain", offset, line, column⟩
  ⟨kind, lexeme, ⟨p, p.right lexeme.length⟩⟩

/-- The tokens of the first line. -/
def plainFirst : List Token :=
  [plainToken .ident "x" 0 1 1, plainToken .assign "=" 2 1 3, plainToken .text "\"a//b\"" 4 1 5]

/-- The tokens of the second line. -/
def plainSecond : List Token :=
  [plainToken .ret "ret" 11 2 1, plainToken .integer "-12" 15 2 5]

/-- The tokens of the text. -/
def plainTokens : List Token :=
  plainFirst ++ ⟨.newline, "\n", ⟨⟨"plain", 10, 1, 11⟩, ⟨"plain", 11, 2, 1⟩⟩⟩ ::
    (plainSecond ++ plainToken .newline "" 18 2 8 :: [plainToken .eof "" 18 2 8])

/-- The same words with an empty line before them, comments, tabs and carriage returns. -/
def spread : List Char :=
  ("".toList ++ "".toList) ++ ("\r\n".toList ++
    (("\t ".toList ++
      (("x".toList ++ ("  ".toList ++ ("=".toList ++ ("\t".toList ++ "\"a//b\"".toList)))) ++
        ("".toList ++ "// other \"text".toList))) ++ ("\r\n".toList ++
    ((" ".toList ++ "// alone".toList) ++ ("\n".toList ++
    (("".toList ++ (("ret".toList ++ ("\t".toList ++ "-12".toList)) ++
        (" ".toList ++ "".toList))) ++ ("\n".toList ++
    ("".toList ++ "".toList))))))))

theorem layout_spread : Layout plainTokens spread := by
  have hnone : ∀ c ∈ "".toList, isBlank c = true := List.all_eq_true.mp rfl
  have hblank : ∀ c ∈ " ".toList, isBlank c = true := List.all_eq_true.mp rfl
  have hblanks : ∀ c ∈ "  ".toList, isBlank c = true := List.all_eq_true.mp rfl
  have htab : ∀ c ∈ "\t".toList, isBlank c = true := List.all_eq_true.mp rfl
  have hindent : ∀ c ∈ "\t ".toList, isBlank c = true := List.all_eq_true.mp rfl
  have hfirst : Spaced plainFirst ("x".toList ++ ("  ".toList ++ ("=".toList ++ ("\t".toList ++
      "\"a//b\"".toList)))) :=
    .cons hblanks (by decide) (.cons htab (by decide) .one)
  have hsecond : Spaced plainSecond ("ret".toList ++ ("\t".toList ++ "-12".toList)) :=
    .cons htab (by decide) .one
  refine .blank (.empty hnone .none) .crlf ?_
  refine .line (by decide) rfl (.words (by decide) hindent hfirst hnone (.comment (by decide)))
    .crlf ?_
  refine .blank (.empty hblank (.comment (by decide))) .lf ?_
  refine .line (by decide) rfl (.words (by decide) hnone hsecond hblank .none) .lf ?_
  exact .last rfl (.empty hnone .none)

end Sample

/-- The second text of the sample has the tokens of the first. -/
theorem lex_layout_sample :
    lex "plain" Sample.plain = .ok Sample.plainTokens ∧
      Layout Sample.plainTokens (String.ofList Sample.spread).toList ∧
      ∃ tokens, lex "spread" (String.ofList Sample.spread) = .ok tokens ∧
        outline tokens = outline Sample.plainTokens := by
  have hlex : lex "plain" Sample.plain = .ok Sample.plainTokens := rfl
  have hlayout : Layout Sample.plainTokens (String.ofList Sample.spread).toList := by
    rw [String.toList_ofList]
    exact Sample.layout_spread
  exact ⟨hlex, hlayout, lex_layout hlex hlayout⟩

end Vapor
