/-
Vapor/Proofs/Faithful.lean

The spans of a program say where its nodes stand in the text it was read from
(`spans_faithful`).  Each node lies in the one that it belongs to; the nodes of one list stand
one behind the other; and the text of a node is what the node was read from.  In particular the
text of an instruction by itself has the tokens of the instruction and no others.

Nothing is said here that is not known of tokens already.  A node comes from consecutive tokens
(`parse_from`), and what consecutive tokens reach over is known from where they are laid out in
the text (`lex_laid`).
-/
import Vapor.Proofs.Grammar.Origins

namespace Vapor

/-! ### Nodes in a text -/

/-- The text of an operand: a variable is its name, a string is its lexeme, an integer can be read
as its value, and a label is a colon, blanks and its name. -/
def Operand.Spelled (text : List Char) : Operand Span → Prop
  | .var x => x.note.chars text = x.name.toList
  | .int n note => Text.readInteger (String.ofList (note.chars text)) = .ok n
  | .text lexeme note => note.chars text = lexeme.toList
  | .label x => ∃ gap, (∀ c ∈ gap, isBlank c = true) ∧
      x.note.chars text = ':' :: gap ++ x.name.toList

/-- An operand is spelled in the text; so is the variable in an address, inside of it. -/
def Part.Faithful (text : List Char) : Part → Prop
  | .operand o => o.Spelled text
  | .address a => a.base.note.Inside a.note ∧ Operand.Spelled text (.var a.base)

/-- The tokens of an instruction: consecutive tokens that take up its span, all others standing
before it or behind it, from which the grammar derives the instruction.  Its text has these
tokens again. -/
structure Instr.Tokens (path : String) (text : List Char) (i : Instr Span)
    (before used behind : List Token) : Prop where
  extent : Extent used i.note
  before : ∀ t ∈ before, t.span.Before i.note
  behind : ∀ t ∈ behind, i.note.Before t.span
  derived : ∃ rest, Grammar.InstrForm (used ++ rest) rest (i.map Grammar.forget)
  again : ∃ again, lex path (String.ofList (i.note.chars text)) = .ok again ∧
    (again.filter fun t => t.IsWord).map Token.content = used.map Token.content

/-- An instruction stands where its span says: its parts lie in it, in their order, and its tokens
are found there. -/
structure Instr.Faithful (path : String) (text : List Char) (tokens : List Token)
    (i : Instr Span) : Prop where
  nested : Nested Part.span i.note i.parts
  parts : ∀ a ∈ i.parts, a.Faithful text
  tokens : ∃ before used behind, tokens = before ++ used ++ behind ∧
    i.Tokens path text before used behind

/-- The words of a segment lie in its span, in their order, and are spelled there. -/
structure Segment.Faithful (text : List Char) (s : Segment Span) : Prop where
  nested : Nested (fun d => d.operand.note) s.note s.values
  values : ∀ d ∈ s.values, d.operand.Spelled text

/-- The parameters of a function, its instructions and its labels lie in its span, each in their
order, and stand where their spans say. -/
structure Function.Faithful (path : String) (text : List Char) (tokens : List Token)
    (f : Function Span) : Prop where
  params : Nested Ref.note f.note f.params
  body : Nested Instr.note f.note f.body
  labels : Nested Label.note f.note f.labels
  param : ∀ x ∈ f.params, x.note.chars text = x.name.toList
  instr : ∀ i ∈ f.body, i.Faithful path text tokens
  label : ∀ l ∈ f.labels, l.note.chars text = l.name.toList

/-- The spans of a program are those of its nodes in a text with these tokens.  No segment meets
a function. -/
structure Program.Faithful (path : String) (text : List Char) (tokens : List Token)
    (p : Program Span) : Prop where
  forward : p.note.start.offset ≤ p.note.stop.offset
  inside : p.note.stop.offset ≤ text.length
  segments : Nested Segment.note p.note p.segments
  functions : Nested Function.note p.note p.functions
  apart : ∀ s ∈ p.segments, ∀ f ∈ p.functions, s.note.Before f.note ∨ f.note.Before s.note
  segment : ∀ s ∈ p.segments, s.Faithful text
  function : ∀ f ∈ p.functions, f.Faithful path text tokens

/-! ### From tokens to the text -/

variable {path : String} {text : List Char} {tokens used : List Token}

theorem Operand.From.spelled {o : Operand Span} (h : o.From used) (hused : Laid path text used) :
    o.Spelled text := by
  have hchars {t : Token} (ht : t ∈ used) : t.span.chars text = t.lexeme.toList :=
    (hused.placed t ht).lexeme.symm
  cases h with
  | var _ => exact hchars List.mem_cons_self
  | @int t n _ hn =>
    show Text.readInteger (String.ofList (t.span.chars text)) = .ok n
    rw [hchars List.mem_cons_self, String.ofList_toList, hn]
  | text _ => exact hchars List.mem_cons_self
  | label hcolon hname => exact hused.label_chars hcolon hname

theorem Part.From.faithful {a : Part} (h : a.From used) (hused : Laid path text used) :
    a.Faithful text := by
  have hextent := h.extent
  cases h with
  | operand h => exact h.spelled hused
  | @address opening base close offset n _ hbase _ _ =>
    have hinfix : [base] <:+: opening :: base :: (offset ++ [close]) :=
      ⟨[opening], offset ++ [close], rfl⟩
    have hfrom : Operand.From [base] (.var ⟨base.lexeme, base.span⟩) := .var hbase
    exact ⟨hused.inside hextent hinfix (.single base), hfrom.spelled (hused.mono hinfix)⟩

theorem Instr.DerivedFrom.faithful {i : Instr Span} (h : i.DerivedFrom used)
    (hused : used <:+: tokens) (htokens : Laid path text tokens) :
    i.Faithful path text tokens := by
  obtain ⟨⟨hextent, hparts⟩, hderived⟩ := h
  have hlaid := htokens.mono hused
  refine ⟨hparts.nested hlaid hextent fun _ _ => Part.From.extent, fun a ha => ?_, ?_⟩
  · obtain ⟨us, hus, hfrom⟩ := hparts.exists_part ha
    exact hfrom.faithful (hlaid.mono hus)
  · -- the others are before the first of the tokens or behind the last
    obtain ⟨before, behind, rfl⟩ := hused
    have hwords := hparts.forall_mem fun _ _ => Part.From.isWord
    obtain ⟨hordered, -, hbehind⟩ := List.pairwise_append.mp htokens.ordered
    have hbefore := (List.pairwise_append.mp hordered).2.2
    refine ⟨before, used, behind, rfl, hextent, fun t ht => ?_, fun t ht => ?_, hderived,
      hlaid.lex_chars hwords hextent⟩
    · obtain ⟨first, hfirst, hstart⟩ := hextent.head
      rw [Span.Before, ← hstart]
      exact hbefore t ht first (List.mem_of_head? hfirst)
    · obtain ⟨last, hlast, hstop⟩ := hextent.last
      rw [Span.Before, ← hstop]
      exact hbehind last (List.mem_append_right _ (List.mem_of_getLast? hlast)) t ht

theorem Segment.From.faithful {s : Segment Span} (h : s.From used) (hused : Laid path text used) :
    s.Faithful text := by
  refine ⟨h.values.nested hused h.extent fun _ _ hd => hd.extent, fun d hd => ?_⟩
  obtain ⟨us, hus, hfrom⟩ := h.values.exists_part hd
  exact hfrom.spelled (hused.mono hus)

theorem Function.From.faithful {f : Function Span} (h : f.From used) (hused : used <:+: tokens)
    (htokens : Laid path text tokens) : f.Faithful path text tokens := by
  have hlaid := htokens.mono hused
  refine ⟨h.params.nested hlaid h.extent fun _ _ hx => hx.extent,
    h.body.nested hlaid h.extent fun _ _ hi => hi.1.extent,
    h.labels.nested hlaid h.extent fun _ _ hl => hl.extent,
    fun x hx => ?_, fun i hi => ?_, fun l hl => ?_⟩
  · obtain ⟨us, hus, hfrom⟩ := h.params.exists_part hx
    exact hfrom.spelled (hlaid.mono hus)
  · obtain ⟨us, hus, hfrom⟩ := h.body.exists_part hi
    exact hfrom.faithful (hus.trans hused) htokens
  · obtain ⟨us, hus, hfrom⟩ := h.labels.exists_part hl
    exact hfrom.spelled (hlaid.mono hus)

/-- Where a segment or a function stands. -/
def itemSpan : Segment Span ⊕ Function Span → Span :=
  Sum.elim Segment.note Function.note

theorem ItemFrom.extent {item : Segment Span ⊕ Function Span} (h : ItemFrom used item) :
    Extent used (itemSpan item) := by
  cases item with
  | inl s => exact Segment.From.extent h
  | inr f => exact Function.From.extent h

theorem Program.From.faithful {p : Program Span} (h : p.From tokens)
    (htokens : Laid path text tokens) : p.Faithful path text tokens := by
  obtain ⟨hextent, items, hsegments, hfunctions, hitems⟩ := h
  have hleft : Scattered Segment.From tokens p.segments := by
    rw [hsegments]
    exact hitems.left fun _ _ hs => hs
  have hright : Scattered Function.From tokens p.functions := by
    rw [hfunctions]
    exact hitems.right fun _ _ hf => hf
  refine ⟨(htokens.inside hextent (List.infix_refl _) hextent).forward, ?_,
    hleft.nested htokens hextent fun _ _ hs => hs.extent,
    hright.nested htokens hextent fun _ _ hf => hf.extent, fun s hs f hf => ?_, fun s hs => ?_,
    fun f hf => ?_⟩
  · obtain ⟨last, hlast, hstop⟩ := hextent.last
    rw [← hstop]
    exact (htokens.placed last (List.mem_of_getLast? hlast)).inside
  · -- both are items, and of two items one comes first
    have hordered := hitems.ordered htokens fun _ _ => ItemFrom.extent
    have hapart : items.Pairwise fun a b =>
        (itemSpan a).Before (itemSpan b) ∨ (itemSpan b).Before (itemSpan a) :=
      hordered.imp .inl
    have hsymm : Std.Symm fun a b =>
        (itemSpan a).Before (itemSpan b) ∨ (itemSpan b).Before (itemSpan a) :=
      ⟨fun _ _ => Or.symm⟩
    have hs' : .inl s ∈ items := by simpa [hsegments] using hs
    have hf' : .inr f ∈ items := by simpa [hfunctions] using hf
    exact hapart.forall hs' hf' Sum.inl_ne_inr
  · obtain ⟨us, hus, hfrom⟩ := hleft.exists_part hs
    exact hfrom.faithful (htokens.mono hus)
  · obtain ⟨us, hus, hfrom⟩ := hright.exists_part hf
    exact hfrom.faithful hus htokens

/-- **Spans are faithful.**  A program that has been read from a text says of each of its nodes
where it stands in the text. -/
theorem spans_faithful {path source : String} {tokens : List Token} {p : Program Span}
    (hlex : lex path source = .ok tokens) (hparse : parse tokens = .ok p) :
    p.Faithful path source.toList tokens := by
  obtain ⟨body, stop, rfl, hstop, hinner⟩ := exists_eof_of_lex hlex
  exact (parse_from hstop hinner hparse).faithful (lex_laid hlex)

namespace Sample

/-- A text with nodes of all kinds, where the last segment ends with the text. -/
def located : String :=
  "func main(x y) // start\n  x = call : main (y 2 \"s\")\nend:\n  [x+4] = y\n" ++
    "  if x goto :\tend\n\n  ret\nvar cell\n 12 :main -3\n  :\r cell"

/-- The text is read, and there are so many instructions and words of data. -/
def isLocated : Bool :=
  match lex "sample" located with
  | .error _ => false
  | .ok tokens =>
    match parse tokens with
    | .error _ => false
    | .ok p =>
      p.functions.map (fun f => f.body.length) == [4] &&
        p.segments.map (fun s => s.values.length) == [4]

end Sample

theorem spans_faithful_sample :
    ∃ tokens p, lex "sample" Sample.located = .ok tokens ∧ parse tokens = .ok p ∧
      p.functions.map (fun f => f.body.length) = [4] ∧
      p.segments.map (fun s => s.values.length) = [4] ∧
      p.Faithful "sample" Sample.located.toList tokens := by
  have h : Sample.isLocated = true := by decide +kernel
  unfold Sample.isLocated at h
  split at h
  · cases h
  rename_i tokens hlex
  split at h
  · cases h
  rename_i p hparse
  rw [Bool.and_eq_true, beq_iff_eq, beq_iff_eq] at h
  exact ⟨tokens, p, hlex, hparse, h.1, h.2, spans_faithful hlex hparse⟩

end Vapor
