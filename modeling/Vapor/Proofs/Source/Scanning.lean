/-
Vapor/Proofs/Source/Scanning.lean

The reader of text as a machine that takes one piece of the text at each step: the end of a
line, a blank, a comment, or a word (`Scanner.Step`).  A step says which tokens come out of
the piece and where the reader stands behind it.

`scan` runs this machine.  What a step does to the result is said once (`Step.result`), so a
run of steps puts its tokens in front of the result (`Run.result`).  From any place a run
leads either to the end of the text or to a character where no step is possible
(`exists_run`).  Hence a text has tokens exactly if a run reads all of it (`lex_eq_ok_iff`),
and a fault stands where the run comes to a halt (`lex_eq_error`).  What holds of the tokens
of a text follows from what a single step keeps (`Run.invariant`).
-/
import Vapor.Proofs.Source.Words

namespace Vapor

/-! ### Positions -/

namespace Pos

/-- The position behind a text: lines are counted by line feeds, and columns from the last
one of them. -/
def behind (path : String) (text : List Char) : Pos :=
  ⟨path, text.length, 1 + text.count '\n', 1 + (text.reverse.takeWhile (· != '\n')).length⟩

@[simp] theorem right_zero (p : Pos) : p.right 0 = p := rfl

theorem right_right (p : Pos) (m n : Nat) : (p.right m).right n = p.right (m + n) := by
  simp [right, Nat.add_assoc]

theorem next_of_ne {c : Char} (p : Pos) (hc : c ≠ '\n') : p.next c = p.right 1 := by
  rw [next, if_neg hc]
  rfl

/-- The position goes on with the text. -/
theorem next_behind (path : String) (text : List Char) (c : Char) :
    (behind path text).next c = behind path (text ++ [c]) := by
  by_cases hc : c = '\n'
  · subst hc
    simp [next, behind, Nat.add_assoc]
  · rw [next_of_ne _ hc]
    have hcount : List.count '\n' [c] = 0 := List.count_eq_zero.mpr (by simpa using Ne.symm hc)
    simp [right, behind, hc, hcount, Nat.add_assoc]

theorem right_behind (path : String) (text : List Char) {w : List Char} (hw : '\n' ∉ w) :
    (behind path text).right w.length = behind path (text ++ w) := by
  induction w generalizing text with
  | nil => simp
  | cons c w ih =>
    rw [List.mem_cons, not_or] at hw
    have hstep := next_behind path text c
    rw [next_of_ne _ (Ne.symm hw.1)] at hstep
    rw [List.length_cons, Nat.add_comm, ← right_right, hstep, ih _ hw.2, List.append_assoc]
    rfl

end Pos

/-! ### Characters that have been accounted for -/

/-- Characters on the same line are passed over. -/
theorem scan_skip (p : Pos) (used : Bool) {w : List Char} (rest : List Char) (hw : '\n' ∉ w) :
    scan p used w.length (w ++ rest) = scan (p.right w.length) used 0 rest := by
  induction w generalizing p with
  | nil => rfl
  | cons c w ih =>
    rw [List.mem_cons, not_or] at hw
    calc scan p used (c :: w).length (c :: (w ++ rest))
        = scan (p.next c) used w.length (w ++ rest) := rfl
      _ = scan (p.right 1) used w.length (w ++ rest) := by rw [Pos.next_of_ne _ (Ne.symm hw.1)]
      _ = scan ((p.right 1).right w.length) used 0 rest := ih _ hw.2
      _ = scan (p.right (c :: w).length) used 0 rest := by
        rw [Pos.right_right, List.length_cons, Nat.add_comm]

/-! ### The machine -/

/-- Where the reader of a text stands. -/
structure Scanner where
  pos : Pos
  /-- Has the line a token so far? -/
  used : Bool
  /-- The text that is left. -/
  rest : List Char

namespace Scanner

/-- The reader at the beginning of a text. -/
def start (path source : String) : Scanner :=
  ⟨.first path, false, source.toList⟩

/-- What the reader makes of the text that is left. -/
def result (s : Scanner) : Except LexError (List Token) :=
  scan s.pos s.used 0 s.rest

/-- The tokens at the end of the text. -/
def closing (s : Scanner) : List Token :=
  lineEnd s.used "" s.pos s.pos ++ [⟨.eof, "", Span.at s.pos⟩]

/-- One piece of the text is read, and some tokens come out of it. -/
inductive Step : Scanner → List Token → Scanner → Prop where
  | newline {p : Pos} {used : Bool} {rest : List Char} :
      Step ⟨p, used, '\n' :: rest⟩ (lineEnd used "\n" p (p.next '\n')) ⟨p.next '\n', false, rest⟩
  | blank {p : Pos} {used : Bool} {c : Char} {rest : List Char} (hc : isBlank c = true) :
      Step ⟨p, used, c :: rest⟩ [] ⟨p.right 1, used, rest⟩
  | comment {p : Pos} {used : Bool} {text rest : List Char} (htext : '\n' ∉ text)
      (hrest : ∀ c ∈ rest.head?, c = '\n') :
      Step ⟨p, used, '/' :: '/' :: text ++ rest⟩ [] ⟨p.right ('/' :: '/' :: text).length, used, rest⟩
  | word {p : Pos} {used : Bool} {kind : Token.Kind} {w rest : List Char} (hw : Word kind w rest) :
      Step ⟨p, used, w ++ rest⟩ [⟨kind, String.ofList w, ⟨p, p.right w.length⟩⟩]
        ⟨p.right w.length, true, rest⟩

/-- The reader comes to a halt: a word should begin here, and there is this fault in it.  So
it would be wherever the text that is left stood. -/
structure Halts (s : Scanner) (fault : LexFault) (n : Nat) : Prop where
  at_fault : ∃ c rest, s.rest = c :: rest ∧ c ≠ '\n' ∧ Lexeme.read c rest = .error (fault, n)
  anywhere : ∀ p used, result ⟨p, used, s.rest⟩ = .error ⟨fault, ⟨p, p.right n⟩⟩

theorem Halts.result {s : Scanner} {fault : LexFault} {n : Nat} (h : s.Halts fault n) :
    s.result = .error ⟨fault, ⟨s.pos, s.pos.right n⟩⟩ :=
  h.anywhere s.pos s.used

theorem newline_not_mem_comment {text : List Char} (htext : '\n' ∉ text) :
    '\n' ∉ '/' :: '/' :: text := by
  simpa using htext

theorem ne_newline_of_isBlank {c : Char} (hc : isBlank c = true) : c ≠ '\n' := by
  rintro rfl
  exact absurd hc (by decide)

/-- A step puts its tokens in front of the result. -/
theorem Step.result {s s' : Scanner} {ts : List Token} (h : Step s ts s') :
    s.result = s'.result.map (ts ++ ·) := by
  cases h with
  | newline => rfl
  | @blank p used c rest hc =>
    have hline := ne_newline_of_isBlank hc
    show scan p used 0 (c :: rest) = (scan (p.right 1) used 0 rest).map ([] ++ ·)
    rw [scan, if_neg hline, if_pos hc, Pos.next_of_ne p hline]
    cases scan (p.right 1) used 0 rest <;> rfl
  | @comment p used text rest htext hrest =>
    have hline := newline_not_mem_comment htext
    rw [List.mem_cons, not_or] at hline
    have hskip : ('/' :: text ++ rest).takeWhile (· != '\n') = '/' :: text := by
      refine takeWhile_append_eq_iff.mpr ⟨fun c hc => ?_, fun c hc => ?_⟩
      · rw [bne_iff_ne]
        rintro rfl
        exact hline.2 hc
      · simp [hrest c hc]
    show scan p used 0 ('/' :: ('/' :: text ++ rest)) = (scan _ used 0 rest).map ([] ++ ·)
    rw [scan, if_neg (by decide), if_neg (by decide), if_pos ⟨rfl, rfl⟩, hskip,
      scan_skip _ _ _ hline.2, Pos.next_of_ne p (by decide), Pos.right_right, Nat.add_comm]
    cases scan (p.right (('/' :: text).length + 1)) used 0 rest <;> rfl
  | @word p used kind w rest hw =>
    obtain ⟨c, cs, rfl⟩ := List.exists_cons_of_ne_nil hw.ne_nil
    obtain ⟨hline, hblank, hslash⟩ := hw.head
    have hread : Lexeme.read c (cs ++ rest) = .ok (kind, cs.length) :=
      Lexeme.read_eq_ok_iff.mpr ⟨cs, rest, rfl, rfl, hw⟩
    have hcs : '\n' ∉ cs := fun hmem => hw.newline_not_mem (List.mem_cons_of_mem c hmem)
    show scan p used 0 (c :: (cs ++ rest)) = (scan _ true 0 rest).map _
    rw [scan, if_neg hline, if_neg (by simp [hblank]), if_neg fun h => hslash h.1, hread]
    dsimp only
    rw [scan_skip _ _ _ hcs, Pos.next_of_ne p hline, Pos.right_right, List.take_left, Nat.add_comm 1]
    rfl

/-- At any place the text ends, a step is possible, or the reader comes to a halt. -/
theorem step_or_halts (s : Scanner) :
    s.rest = [] ∨ (∃ ts s', Step s ts s') ∨ ∃ fault n, s.Halts fault n := by
  obtain ⟨p, used, rest⟩ := s
  cases rest with
  | nil => exact .inl rfl
  | cons c rest =>
    refine .inr ?_
    by_cases hline : c = '\n'
    · subst hline
      exact .inl ⟨_, _, .newline⟩
    by_cases hblank : isBlank c = true
    · exact .inl ⟨_, _, .blank hblank⟩
    by_cases hcomment : c = '/' ∧ rest.head? = some '/'
    · obtain ⟨rfl, hslash⟩ := hcomment
      obtain ⟨rest, rfl⟩ := List.head?_eq_some_iff.mp hslash
      obtain ⟨text, rest, rfl, -, htext, hrest⟩ := exists_takeWhile (· != '\n') rest
      have hline : '\n' ∉ text := fun hmem => by simpa using htext _ hmem
      have hend : ∀ d ∈ rest.head?, d = '\n' := fun d hd => by simpa using hrest d hd
      exact .inl ⟨_, _, .comment hline hend⟩
    rcases hread : Lexeme.read c rest with ⟨fault, n⟩ | ⟨kind, n⟩
    · refine .inr ⟨fault, n, ⟨c, rest, rfl, hline, hread⟩, fun p used => ?_⟩
      show scan p used 0 (c :: rest) = _
      rw [scan, if_neg hline, if_neg hblank, if_neg hcomment, hread]
    · obtain ⟨w, rest, rfl, rfl, hw⟩ := Lexeme.read_eq_ok_iff.mp hread
      exact .inl ⟨_, _, .word hw⟩

/-- A step reads part of the text, which ends a line or stands on one. -/
theorem Step.reads {s s' : Scanner} {ts : List Token} (h : Step s ts s') :
    ∃ w, s.rest = w ++ s'.rest ∧ w ≠ [] ∧
      (w = ['\n'] ∧ s'.pos = s.pos.next '\n' ∨ '\n' ∉ w ∧ s'.pos = s.pos.right w.length) := by
  cases h with
  | newline => exact ⟨['\n'], rfl, List.cons_ne_nil _ _, .inl ⟨rfl, rfl⟩⟩
  | @blank p used c rest hc =>
    refine ⟨[c], rfl, List.cons_ne_nil _ _, .inr ⟨?_, rfl⟩⟩
    simpa using Ne.symm (ne_newline_of_isBlank hc)
  | comment htext _ =>
    exact ⟨_, rfl, List.cons_ne_nil _ _, .inr ⟨newline_not_mem_comment htext, rfl⟩⟩
  | word hw => exact ⟨_, rfl, hw.ne_nil, .inr ⟨hw.newline_not_mem, rfl⟩⟩

/-! ### Runs -/

/-- Any number of steps, and the tokens that come out of them. -/
inductive Run : Scanner → List Token → Scanner → Prop where
  | refl {s : Scanner} : Run s [] s
  | step {s s' s'' : Scanner} {ts us : List Token} (h : Step s ts s') (hrun : Run s' us s'') :
      Run s (ts ++ us) s''

theorem Run.trans {s s' s'' : Scanner} {ts us : List Token} (h : Run s ts s')
    (h' : Run s' us s'') : Run s (ts ++ us) s'' := by
  induction h with
  | refl => exact h'
  | step hstep _ ih =>
    rw [List.append_assoc]
    exact .step hstep (ih h')

theorem Run.result {s s' : Scanner} {ts : List Token} (h : Run s ts s') :
    s.result = s'.result.map (ts ++ ·) := by
  induction h with
  | @refl s =>
    cases s.result <;> rfl
  | @step s s' s'' ts us h _ ih =>
    rw [h.result, ih]
    cases s''.result with
    | error e => rfl
    | ok vs => exact congrArg Except.ok (List.append_assoc ts us vs).symm

/-- What a step keeps holds behind a run. -/
theorem Run.invariant {I : List Token → Scanner → Prop} {s s' : Scanner} {ts : List Token}
    (h : Run s ts s') (hstart : I [] s)
    (hstep : ∀ {out s ts s'}, I out s → Step s ts s' → I (out ++ ts) s') : I ts s' := by
  have hrun : ∀ out, I out s → I (out ++ ts) s' := by
    clear hstart
    induction h with
    | refl =>
      intro out hout
      rwa [List.append_nil]
    | step h _ ih =>
      intro out hout
      rw [← List.append_assoc]
      exact ih _ (hstep hout h)
  exact hrun [] hstart

/-- A run leads to the end of the text, or to where the reader comes to a halt. -/
theorem exists_run (s : Scanner) :
    ∃ ts s', Run s ts s' ∧ (s'.rest = [] ∨ ∃ fault n, s'.Halts fault n) := by
  -- each step leaves less of the text
  generalize hlen : s.rest.length = len
  induction len using Nat.strongRecOn generalizing s with
  | ind len ih =>
    rcases step_or_halts s with hend | ⟨ts, s', hstep⟩ | hhalts
    · exact ⟨[], s, .refl, .inl hend⟩
    · obtain ⟨w, hw, hne, -⟩ := hstep.reads
      have hshorter : s'.rest.length < len := by
        rw [← hlen, hw, List.length_append]
        have := List.length_pos_iff.mpr hne
        omega
      obtain ⟨us, s'', hrun, hstop⟩ := ih _ hshorter s' rfl
      exact ⟨ts ++ us, s'', .step hstep hrun, hstop⟩
    · exact ⟨[], s, .refl, .inr hhalts⟩

theorem result_of_rest_eq_nil {s : Scanner} (h : s.rest = []) : s.result = .ok s.closing := by
  obtain ⟨p, used, rest⟩ := s
  subst h
  rfl

end Scanner

open Scanner

variable {path source : String}

/-- A text has tokens if a run reads all of it. -/
theorem lex_eq_ok_iff {tokens : List Token} :
    lex path source = .ok tokens ↔
      ∃ ts s, Run (start path source) ts s ∧ s.rest = [] ∧ tokens = ts ++ s.closing := by
  constructor
  · intro h
    obtain ⟨ts, s, hrun, hend | ⟨fault, n, hhalts⟩⟩ := exists_run (start path source)
    · have hresult := hrun.result
      rw [result_of_rest_eq_nil hend] at hresult
      exact ⟨ts, s, hrun, hend, Except.ok.inj (h.symm.trans hresult)⟩
    · have hresult := hrun.result
      rw [hhalts.result] at hresult
      exact nomatch h.symm.trans hresult
  · rintro ⟨ts, s, hrun, hend, rfl⟩
    have hresult := hrun.result
    rw [result_of_rest_eq_nil hend] at hresult
    exact hresult

/-- A fault stands where a run comes to a halt. -/
theorem lex_eq_error {e : LexError} (h : lex path source = .error e) :
    ∃ ts s n, Run (start path source) ts s ∧ s.Halts e.fault n ∧
      e.span = ⟨s.pos, s.pos.right n⟩ := by
  obtain ⟨ts, s, hrun, hend | ⟨fault, n, hhalts⟩⟩ := exists_run (start path source)
  · have hresult := hrun.result
    rw [result_of_rest_eq_nil hend] at hresult
    exact nomatch h.symm.trans hresult
  · have hresult := hrun.result
    rw [hhalts.result] at hresult
    obtain rfl := Except.error.inj (h.symm.trans hresult)
    exact ⟨ts, s, n, hrun, hhalts, rfl⟩

end Vapor
