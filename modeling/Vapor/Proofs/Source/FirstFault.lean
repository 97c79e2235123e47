/-
Vapor/Proofs/Source/FirstFault.lean

A text is refused at its first word that is none (`lex_error_first`).  What comes before the
place that is reported has tokens by itself, and what begins there is refused by itself, with
the same fault and at its very beginning.

Where a step ends does not depend on more than the next character, so that a run may be cut
off where it has come to: the text that it has read makes the same tokens if nothing follows
(`Run.cut`).  And whether the reader comes to a halt depends on the text that is left only
(`Halts.anywhere`).
-/
import Vapor.Proofs.Rejection

namespace Vapor

/-! ### Texts that are cut off -/

/-- What may follow a word decides nothing if it is left out. -/
theorem Word.cut {kind : Token.Kind} {w rest after : List Char} (h : Word kind w (rest ++ after)) :
    Word kind w rest := by
  have hhead : ∀ d ∈ rest.head?, d ∈ (rest ++ after).head? :=
    fun d hd => List.mem_head?_append_of_mem_head? hd
  cases h with
  | name hc hcs hrest => exact .name hc hcs fun d hd => hrest d (hhead d hd)
  | number hc hcs hrest => exact .number hc hcs fun d hd => hrest d (hhead d hd)
  | negative hc hcs hrest => exact .negative hc hcs fun d hd => hrest d (hhead d hd)
  | text h => exact .text h
  | mark h => exact .mark h

namespace Scanner

variable {s s' : Scanner} {ts : List Token}

/-- A step reads the same if the text behind it is cut off somewhere. -/
theorem Step.cut (h : Step s ts s') {rest after : List Char} (hrest : s'.rest = rest ++ after) :
    ∃ w, s.rest = w ++ after ∧ Step ⟨s.pos, s.used, w⟩ ts ⟨s'.pos, s'.used, rest⟩ := by
  cases h with
  | newline =>
    obtain rfl : _ = rest ++ after := hrest
    exact ⟨'\n' :: rest, rfl, .newline⟩
  | @blank p used c _ hc =>
    obtain rfl : _ = rest ++ after := hrest
    exact ⟨c :: rest, rfl, .blank hc⟩
  | @comment p used words _ hwords hend =>
    obtain rfl : _ = rest ++ after := hrest
    refine ⟨'/' :: '/' :: words ++ rest, by simp, .comment hwords fun c hc => ?_⟩
    exact hend c (List.mem_head?_append_of_mem_head? hc)
  | @word p used kind w _ hw =>
    obtain rfl : _ = rest ++ after := hrest
    exact ⟨w ++ rest, (List.append_assoc ..).symm, .word hw.cut⟩

/-- **A run may be cut off where it has come to.** -/
theorem Run.cut (h : Run s ts s') :
    ∃ w, s.rest = w ++ s'.rest ∧ Run ⟨s.pos, s.used, w⟩ ts ⟨s'.pos, s'.used, []⟩ := by
  induction h with
  | refl => exact ⟨[], rfl, .refl⟩
  | step hstep _ ih =>
    obtain ⟨rest, hrest, hrun⟩ := ih
    obtain ⟨w, hw, hcut⟩ := hstep.cut hrest
    exact ⟨w, hw, .step hcut hrun⟩

end Scanner

/-! ### Lines -/

/-- The offset where the line of an offset ends: at the next line feed, or with the text. -/
def endOfLine (text : List Char) (k : Nat) : Nat :=
  k + ((text.drop k).takeWhile (· != '\n')).length

/-- Characters that lie ahead on the same line do not reach past its end. -/
theorem add_length_le_endOfLine {text w after : List Char} {k : Nat}
    (hdrop : text.drop k = w ++ after) (hw : '\n' ∉ w) : k + w.length ≤ endOfLine text k := by
  have hpass : ∀ c ∈ w, (c != '\n') = true := by
    intro c hc
    rw [bne_iff_ne]
    rintro rfl
    exact hw hc
  rw [endOfLine, hdrop, List.takeWhile_append_of_pos hpass, List.length_append]
  omega

/-! ### The first fault -/

open Scanner

variable {path source : String}

/-- **A text is refused at its first word that is none.**  Let a text be refused at the offset
`k`.  Then the text before `k` has tokens, and the text from `k` on is refused at its beginning,
with the same wording.  The position that is named is that of `k` in the text, and the span that
is reported ends on the same line. -/
theorem lex_error_first {e : LexError} (h : lex path source = .error e) {k : Nat}
    (hk : k = e.span.start.offset) :
    (∃ tokens, lex path (String.ofList (source.toList.take k)) = .ok tokens) ∧
      (∃ e', lex path (String.ofList (source.toList.drop k)) = .error e' ∧
        e'.fault = e.fault ∧ e'.span.start = .first path ∧
        e.message = located e.fault.text path e.span.start.line e.span.start.column ∧
        e'.message = located e.fault.text path 1 1) ∧
      e.span.start = .ofOffset path source.toList k ∧
      k ≤ e.span.stop.offset ∧ e.span.stop.offset ≤ endOfLine source.toList k := by
  obtain ⟨ts, s, n, hrun, hhalts, hspan⟩ := lex_eq_error h
  obtain ⟨k', hs, -⟩ := hrun.tiled
  have hstart : e.span.start = .ofOffset path source.toList k' := by rw [hspan, hs.pos]
  obtain rfl : k' = k := by rw [hk, hstart, Pos.offset_ofOffset hs.le]
  refine ⟨?_, ?_, hstart, ?_⟩
  · -- the run is the same on the text that it has read
    obtain ⟨w, hw, hcut⟩ := hrun.cut
    have htake : source.toList.take k' = w := by
      have hsplit : w ++ source.toList.drop k' = source.toList := by rw [← hs.rest]; exact hw.symm
      exact List.append_cancel_right ((List.take_append_drop ..).trans hsplit.symm)
    refine ⟨_, lex_eq_ok_iff.mpr ⟨ts, ⟨s.pos, s.used, []⟩, ?_, rfl, rfl⟩⟩
    rw [start, String.toList_ofList, htake]
    exact hcut
  · -- and the text that is left is refused wherever it stands
    refine ⟨⟨e.fault, ⟨.first path, (Pos.first path).right n⟩⟩, ?_, rfl, rfl, ?_, rfl⟩
    · have hresult := hhalts.anywhere (.first path) false
      rw [hs.rest] at hresult
      show scan (.first path) false 0 (String.ofList (source.toList.drop k')).toList = _
      rw [String.toList_ofList]
      exact hresult
    · rw [LexError.message, Span.locate, hstart]
      rfl
  · obtain ⟨c, rest, hrest, hc, hread⟩ := hhalts.at_fault
    obtain ⟨w, after, hw, rfl, hline⟩ := Lexeme.read_eq_error hc hread
    have hstop : e.span.stop.offset = k' + w.length := by
      rw [hk, hspan]
      rfl
    rw [hstop]
    exact ⟨Nat.le_add_right _ _, add_length_le_endOfLine (hs.rest.symm.trans (hrest.trans hw)) hline⟩

/-- A string that is not closed on its line, behind tokens of several lines. -/
def Sample.openString : String :=
  "const a\n 12 :b // \"\nvar \"c\\n\nx"

theorem lex_error_first_sample :
    ∃ e, lex "sample" Sample.openString = .error e ∧ e.span.start = ⟨"sample", 24, 3, 5⟩ ∧
      (∃ tokens, lex "sample" (String.ofList (Sample.openString.toList.take 24)) = .ok tokens) ∧
      (∃ e', lex "sample" (String.ofList (Sample.openString.toList.drop 24)) = .error e' ∧
        e'.message = "Unterminated string literal at sample:1:1") ∧
      e.span.stop.offset ≤ endOfLine Sample.openString.toList 24 := by
  have hlex : lex "sample" Sample.openString
      = .error ⟨.openString, ⟨⟨"sample", 24, 3, 5⟩, ⟨"sample", 28, 3, 9⟩⟩⟩ := by
    decide +kernel
  obtain ⟨hbefore, ⟨e', hbehind, -, -, -, hmessage⟩, -, -, hstop⟩ := lex_error_first hlex rfl
  exact ⟨_, hlex, rfl, hbefore, ⟨e', hbehind, hmessage⟩, hstop⟩

end Vapor
