/-
Vapor/Proofs/Printing/Segments.lean

The data segments of a program can be read again from what is written for them in the
target (`segments_survive`), whatever blanks their lines are indented by.  The same
segments come back in the same order, with the same names and the same words.  All of
them are constant now, since the target has no others, and writing them once more
gives the same text.

What is written for a segment are the lines of a constant segment of the source, apart
from the blank line behind them, of which the reader takes no notice.  So this rests on
what is known of such lines (`lays_segment`) and on `writable_of_parse`.
-/
import Vapor.Proofs.Emission.Text
import Vapor.Proofs.Printing.RoundTrip
import Vapor.Proofs.Printing.Writable

namespace Vapor

open Grammar Text

variable {α β : Type}

/-- The segment as it is written: constant, and without notes. -/
def Segment.frozen (s : Segment α) : Segment Unit :=
  ⟨s.name, false, s.values.map (Datum.map eraseNote), ()⟩

/-- The text of some segments on a new sheet. -/
def segmentText (unit : String) (segments : List (Segment α)) : String :=
  (Sheet.writeSegments { unit := unit } segments).text

theorem segmentText_eq (unit : String) (segments : List (Segment α)) :
    segmentText unit segments = ofLines (segments.flatMap (Sheet.segmentLines unit 0)) := by
  unfold segmentText
  rw [Sheet.writeSegments_eq rfl]
  simp [Sheet.text, Sheet.append, ofLines]

/-! ### Notes do not matter -/

theorem Segment.writable_map {f : α → β} {s : Segment α} (h : (s.map f).Writable) :
    s.Writable := by
  refine ⟨h.name, fun d hd => ?_⟩
  have hmap := h.values (d.map f) (List.mem_map_of_mem hd)
  cases d <;> exact hmap

theorem Segment.frozen_map (f : α → β) (s : Segment α) : (s.map f).frozen = s.frozen := by
  simp [frozen, Segment.map, Function.comp_def]

theorem Segment.frozen_frozen (s : Segment α) : s.frozen.frozen = s.frozen := by
  simp [frozen, Function.comp_def]

/-- Segments that are the same once frozen have the same text. -/
theorem segmentText_congr {ss : List (Segment α)} {ss' : List (Segment β)}
    (h : ss.map Segment.frozen = ss'.map Segment.frozen) (unit : String) :
    segmentText unit ss = segmentText unit ss' := by
  have hfrozen : ∀ γ : Type, (Sheet.segmentLines unit 0 : Segment γ → List String) =
      fun s => Sheet.segmentLines unit 0 s.frozen := by
    intro γ
    funext s
    have hrender : ∀ d : Datum γ, (d.map eraseNote).render = d.render := by
      intro d
      cases d <;> rfl
    simp [Sheet.segmentLines, Segment.frozen, hrender, Function.comp_def]
  rw [segmentText_eq, segmentText_eq, hfrozen α, hfrozen β, ← List.flatMap_map, h,
    List.flatMap_map]

/-! ### Lines -/

theorem Datum.write_ne_empty (d : Datum α) : d.write ≠ "" := by
  cases d with
  | int n note =>
    intro h
    have hnil : (toString n).toList = [] := congrArg String.toList h
    exact (word_toString n).ne_nil hnil
  | label l =>
    intro h
    simpa [Datum.write, Ref.writeLabel] using congrArg String.toList h

/-- The lines of a segment are those of a constant segment, and a blank one. -/
theorem segmentLines_eq (unit : String) (s : Segment α) :
    Sheet.segmentLines unit 0 s =
      (("const " ++ s.name) :: s.values.map (unit ++ ·.write)) ++ [""] := by
  have hheader : Sheet.written unit 0 ("const " ++ s.name) = "const " ++ s.name := by
    have hne : "const " ++ s.name ≠ "" := by
      intro h
      simpa using congrArg String.toList h
    simp [Sheet.written, Sheet.indentation, hne]
  have hvalue : ∀ d : Datum α, Sheet.written unit 1 d.render = unit ++ d.write := by
    intro d
    have hrender : d.render = d.write := by
      cases d <;> rfl
    rw [hrender]
    simp [Sheet.written, Sheet.indentation, d.write_ne_empty]
  simp [Sheet.segmentLines, hheader, hvalue]

/-- Nothing is read from a blank line. -/
theorem Lays.blank : Lays [""] fun ts us => ts = us := by
  intro p rest
  obtain ⟨ts, p', hrun, hts⟩ := Spells.nil.run_line p rest
  obtain rfl : ts = [] := List.map_eq_nil_iff.mp hts
  exact ⟨[], p', hrun, List.forall_mem_nil _, fun us => rfl⟩

/-- What is written for a segment is read as the frozen segment. -/
theorem lays_segmentLines {unit : String} (hunit : unit.toList.all isBlank = true)
    {s : Segment α} (h : s.Writable) :
    Lays (Sheet.segmentLines unit 0 s) fun ts us => SegmentForm ts us s.frozen := by
  have hconst : Segment.Writable { s with isMutable := false } := ⟨h.name, h.values⟩
  rw [segmentLines_eq]
  refine ((lays_segment hunit hconst).append Lays.blank).mono ?_
  rintro ts _ ⟨us, hs, rfl⟩
  exact hs

theorem lays_frozen {unit : String} (hunit : unit.toList.all isBlank = true)
    {ss : List (Segment α)} (h : ∀ s ∈ ss, s.Writable) :
    Lays (ss.flatMap (Sheet.segmentLines unit 0)) fun ts us =>
      ItemsForm us [] [] → ItemsForm ts (ss.map Segment.frozen) [] := by
  apply Lays.flatMap (F := fun s ts us => SegmentForm ts us s.frozen)
    (R := fun ss ts us => ItemsForm us [] [] → ItemsForm ts (ss.map Segment.frozen) [])
  · intro ts hitems
    exact hitems
  · intro s ss ts us vs hs hss hitems
    exact .segment hs (hss hitems)
  · intro s hs
    exact lays_segmentLines hunit (h s hs)

/-! ### Texts -/

/-- The text of segments with different names is read as the frozen segments. -/
theorem parse_segmentText {unit : String} (hunit : unit.toList.all isBlank = true)
    {ss : List (Segment α)} (h : ∀ s ∈ ss, s.Writable) (hdistinct : (ss.map Segment.name).Nodup)
    (path : String) :
    ∃ tokens q, lex path (segmentText unit ss) = .ok tokens ∧ parse tokens = .ok q ∧
      q.erase = ⟨ss.map Segment.frozen, [], ()⟩ := by
  obtain ⟨ts, p', hrun, hproper, hitems⟩ := lays_frozen hunit h (.first path) []
  rw [List.append_nil, ← segmentText_eq] at hrun
  have hderives : Derives ts ⟨ss.map Segment.frozen, [], ()⟩ := by
    refine ⟨?_, ?_⟩
    · have hall := hitems [] .nil
      rwa [List.append_nil] at hall
    · simpa [Segment.frozen, Function.comp_def] using hdistinct
  have hstop : (⟨.eof, "", .at p'⟩ : Token).kind = .eof := rfl
  obtain ⟨q, hparse, herase⟩ := parse_of_derives hstop hproper hderives
  exact ⟨_, q, lex_eq_ok_iff.mpr ⟨ts, _, hrun, rfl, rfl⟩, hparse, herase⟩

/-- **Data segments survive.**  Let a program be read from a text.  What is written for its
segments, with any blanks for indentation, is read as a program without functions and
with the same segments: they have the same names and the same words, in the same order,
and are constant.  Writing these gives the same text again. -/
theorem segments_survive {path source : String} {tokens : List Token} {p : Program Span}
    (hlex : lex path source = .ok tokens) (hparse : parse tokens = .ok p) {unit : String}
    (hunit : ∀ c ∈ unit.toList, isBlank c = true) (path' : String) :
    ∃ tokens' q, lex path' (segmentText unit p.segments) = .ok tokens' ∧
      parse tokens' = .ok q ∧ q.functions = [] ∧
      q.segments.map (Segment.map eraseNote) =
        p.segments.map (fun s => { s.map eraseNote with isMutable := false }) ∧
      segmentText unit q.segments = segmentText unit p.segments := by
  have hwritable := writable_of_parse hlex hparse
  have hsegments : ∀ s ∈ p.segments, s.Writable := fun s hs =>
    Segment.writable_map (hwritable.segments _ (List.mem_map_of_mem hs))
  have hdistinct : (p.segments.map Segment.name).Nodup := by
    have hnames := (List.nodup_append.mp hwritable.distinct).1
    simpa [Program.erase, Program.map, Segment.map, Function.comp_def] using hnames
  obtain ⟨tokens', q, hlex', hparse', herase⟩ :=
    parse_segmentText (List.all_eq_true.mpr hunit) hsegments hdistinct path'
  have hq : q.segments.map (Segment.map eraseNote) = p.segments.map Segment.frozen :=
    congrArg Program.segments herase
  refine ⟨tokens', q, hlex', hparse', ?_, hq, ?_⟩
  · exact List.map_eq_nil_iff.mp (congrArg Program.functions herase)
  · apply segmentText_congr
    have hfrozen := congrArg (List.map Segment.frozen) hq
    simpa [Segment.frozen_map, Segment.frozen_frozen, Function.comp_def] using hfrozen

namespace Sample

/-- Numbers with leading zeros, a negative zero and digits of another script, several words on
a line, a comment, and an empty segment behind a function. -/
def tableSource : String :=
  "var Table\n  007 :Get -0 // three words\n\n\t٤٢\r\nfunc Get()\n  ret\nconst Empty"

/-- What is written for its segments. -/
def tableText : String :=
  "const Table\n\t 7\n\t :Get\n\t 0\n\t 42\n\nconst Empty\n\n"

end Sample

/-- The sample is read, its segments have this text, and they are read again from it. -/
theorem segments_survive_sample :
    (∀ c ∈ "\t ".toList, isBlank c = true) ∧ ∃ tokens p, lex "sample" Sample.tableSource = .ok tokens ∧
      parse tokens = .ok p ∧ segmentText "\t " p.segments = Sample.tableText ∧
      ∃ tokens' q, lex "again" (segmentText "\t " p.segments) = .ok tokens' ∧
        parse tokens' = .ok q ∧ q.functions = [] ∧
        q.segments.map (Segment.map eraseNote) =
          p.segments.map (fun s => { s.map eraseNote with isMutable := false }) ∧
        segmentText "\t " q.segments = segmentText "\t " p.segments := by
  have hblank : ∀ c ∈ "\t ".toList, isBlank c = true := List.all_eq_true.mp rfl
  have hread : (lex "sample" Sample.tableSource).toOption.map (fun tokens =>
      (parse tokens).toOption.map fun p => segmentText "\t " p.segments) =
      some (some Sample.tableText) := by decide +kernel
  rcases hlex : lex "sample" Sample.tableSource with e | tokens
  · rw [hlex] at hread
    exact nomatch hread
  · rw [hlex] at hread
    rcases hparse : parse tokens with e | p
    · simp [Except.toOption, hparse] at hread
    · have htext : segmentText "\t " p.segments = Sample.tableText := by
        simpa [Except.toOption, hparse] using hread
      exact ⟨hblank, tokens, p, rfl, hparse, htext, segments_survive hlex hparse hblank "again"⟩

end Vapor
