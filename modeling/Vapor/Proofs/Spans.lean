/-
Vapor/Proofs/Spans.lean

Spans never influence a result.  Two runs are compared that get the same but for the spans:
the reader on two lists of tokens, and each later stage on two programs.  Both runs succeed,
with results that are the same but for the spans, or both fail with the same error, and then
the messages differ at most in the place that they name (`spans_irrelevant`).

Neither run is compared with the other directly.  Both are compared with a third one, in
which all spans are forgotten: the first two are that run with the spans put back.
-/
import Vapor.Proofs.Emission.Notes
import Vapor.Proofs.Enumeration
import Vapor.Proofs.Grammar.Abreast
import Vapor.Proofs.Parsed

namespace Vapor

/-! ### Agreement -/

/-- Two runs agree if both have results that are related, or both have errors that are. -/
inductive Agree {ε β : Type} (results : β → β → Prop) (errors : ε → ε → Prop) :
    Except ε β → Except ε β → Prop where
  | ok {b c : β} (h : results b c) : Agree results errors (.ok b) (.ok c)
  | error {d e : ε} (h : errors d e) : Agree results errors (.error d) (.error e)

/-- Runs that are the same once their errors are mapped agree. -/
theorem Agree.of_mapError {ε δ β : Type} {h : ε → δ} {errors : ε → ε → Prop}
    (herrors : ∀ d e, h d = h e → errors d e) {x y : Except ε β}
    (hxy : x.mapError h = y.mapError h) : Agree Eq errors x y := by
  cases x with
  | ok b =>
    cases y with
    | ok c => exact .ok (Except.ok.inj hxy)
    | error e => cases hxy
  | error d =>
    cases y with
    | ok c => cases hxy
    | error e => exact .error (herrors d e (Except.error.inj hxy))

/-- A run that agrees with a successful one is successful. -/
theorem Agree.exists_ok {ε β : Type} {results : β → β → Prop} {errors : ε → ε → Prop} {b : β}
    {y : Except ε β} (h : Agree results errors (.ok b) y) : ∃ c, y = .ok c ∧ results b c := by
  cases h with
  | ok hbc => exact ⟨_, rfl, hbc⟩

/-- Two messages with the same text, and with a place each or with none. -/
inductive SameMessage : String → String → Prop where
  | bare (text : String) : SameMessage text text
  | located (text : String) (span span' : Span) :
      SameMessage (span.locate text) (span'.locate text)

/-! ### Tokens -/

/-- Two tokens with the same kind and lexeme, wherever they stand. -/
def Token.Alike (t u : Token) : Prop :=
  t.kind = u.kind ∧ t.lexeme = u.lexeme

/-- The same error of the reader, at places that may differ. -/
inductive ParseError.Alike : ParseError → ParseError → Prop where
  | noTokens : Alike .noTokens .noTokens
  | fault (what : ParseFault) (span span' : Span) : Alike (.fault what span) (.fault what span')
  | integer (cause : Text.IntegerError) : Alike (.integer cause) (.integer cause)

theorem ParseError.Alike.sameMessage {e e' : ParseError} (h : e.Alike e') :
    SameMessage e.message e'.message := by
  cases h with
  | noTokens => exact .bare _
  | fault what span span' => exact .located what.text span span'
  | integer cause => exact .bare _

theorem ParseError.alike_of_map {f : Span → Span} {e e' : ParseError} (he : e ≠ .endless)
    (h : e.map f = e'.map f) : e.Alike e' := by
  cases e with
  | noTokens =>
    cases e' <;> cases h
    exact .noTokens
  | fault what span =>
    cases e' with
    | fault what' span' =>
      obtain ⟨rfl, -⟩ := ParseError.fault.inj h
      exact .fault what span span'
    | noTokens | integer | endless => cases h
  | integer cause =>
    cases e' <;> cases h
    exact .integer cause
  | endless => exact absurd rfl he

theorem Token.map_eq_of_alike {ts us : List Token} (h : List.Forall₂ Token.Alike ts us)
    (span : Span) : ts.map (Token.map fun _ => span) = us.map (Token.map fun _ => span) := by
  induction h with
  | nil => rfl
  | @cons t u ts us htu _ ih =>
    obtain ⟨hkind, hlexeme⟩ := htu
    rw [List.map_cons, List.map_cons, ih, Token.map, Token.map, hkind, hlexeme]

/-- A list that comes to an end is abreast of itself with other places. -/
theorem Token.exists_abreast (f : Span → Span) {ts : List Token} (h : .eof ∈ ts.map Token.kind) :
    ∃ n, Token.Abreast f n ts (ts.map (Token.map f)) := by
  induction ts with
  | nil => simp at h
  | cons t ts ih =>
    by_cases ht : t.kind = .eof
    · exact ⟨0, .stop ht⟩
    · have hrest : .eof ∈ ts.map Token.kind := by
        rcases List.mem_cons.mp h with heof | hrest
        · exact absurd heof.symm ht
        · exact hrest
      obtain ⟨n, hn⟩ := ih hrest
      exact ⟨n + 1, .more ht hn⟩

/-- The reader makes the same of tokens that are alike. -/
theorem parse_agree {ts us : List Token} (heof : .eof ∈ ts.map Token.kind)
    (halike : List.Forall₂ Token.Alike ts us) :
    Agree (fun p q => p.erase = q.erase)
      (fun e e' => e.Alike e' ∧ SameMessage e.message e'.message) (parse ts) (parse us) := by
  -- both lists are abreast of a third one, in which all tokens stand at one place
  let place : Span := Span.at (Pos.first "")
  have hjoin : ∀ a b : Span, place = place.join place := fun _ _ => rfl
  have hcommon := Token.map_eq_of_alike halike place
  have hkinds : ts.map Token.kind = us.map Token.kind := by
    simpa [Function.comp_def] using congrArg (List.map Token.kind) hcommon
  obtain ⟨n, hts⟩ := Token.exists_abreast (fun _ => place) heof
  obtain ⟨k, hus⟩ := Token.exists_abreast (fun _ => place) (hkinds ▸ heof)
  rw [← hcommon] at hus
  rcases parse_abreast hjoin hts with ⟨p, hp, hthird⟩ | ⟨e, he, hp, hthird⟩
  · rcases parse_abreast hjoin hus with ⟨q, hq, hthird'⟩ | ⟨e', -, -, hthird'⟩
    · have hpq : (p.map fun _ => place) = q.map fun _ => place :=
        Except.ok.inj (hthird.symm.trans hthird')
      rw [hp, hq]
      exact .ok (by rw [← p.erase_map, hpq, q.erase_map])
    · exact nomatch hthird.symm.trans hthird'
  · rcases parse_abreast hjoin hus with ⟨q, -, hthird'⟩ | ⟨e', -, hq, hthird'⟩
    · exact nomatch hthird.symm.trans hthird'
    · have halike := ParseError.alike_of_map he (Except.error.inj (hthird.symm.trans hthird'))
      rw [hp, hq]
      exact .error ⟨halike, halike.sameMessage⟩

/-! ### Programs -/

/-- The error without its note. -/
def FlowError.erase (e : FlowError Span) : FlowError Unit :=
  e.map fun _ => ()

/-- The error without its note. -/
def CompileError.erase (e : CompileError Span) : CompileError Unit :=
  e.map fun _ => ()

theorem FlowError.sameMessage {e e' : FlowError Span} (h : e.erase = e'.erase) :
    SameMessage e.message e'.message := by
  cases e <;> cases e' <;> cases h
  · exact .located _ _ _
  · exact .located _ _ _
  · exact .bare _

theorem EmitError.sameMessage {e e' : EmitError Span}
    (h : (e.map fun _ => ()) = e'.map fun _ => ()) : SameMessage e.message e'.message := by
  cases e <;> cases e' <;> cases h
  · exact .located _ _ _
  · exact .bare _

theorem CompileError.sameMessage {e e' : CompileError Span} (h : e.erase = e'.erase) :
    SameMessage e.message e'.message := by
  cases e with
  | flow cause =>
    cases e' with
    | flow cause' => exact FlowError.sameMessage (CompileError.flow.inj h)
    | placement | emission => cases h
  | placement cause =>
    cases e' <;> cases h
    exact .bare _
  | emission cause =>
    cases e' with
    | emission cause' => exact EmitError.sameMessage (CompileError.emission.inj h)
    | flow | placement => cases h

section Erased

variable {p q : Program Span} (h : p.erase = q.erase)

include h

/-- Programs that are the same but for the spans have functions that are. -/
theorem Program.functions_erased : List.Forall₂
    (fun fn fn' => (fn.map fun _ => ()) = fn'.map fun _ => ()) p.functions q.functions := by
  have hmaps : p.functions.map (Function.map fun _ => ())
      = q.functions.map (Function.map fun _ => ()) := congrArg Program.functions h
  rw [← List.forall₂_eq_eq_eq, List.forall₂_map_left_iff, List.forall₂_map_right_iff] at hmaps
  exact hmaps

theorem Allocator.writeProgram_erased (a : Allocator) (s : Text.Sheet) :
    (a.writeProgram s p).1 = (a.writeProgram s q).1 := by
  have hp := a.writeProgram_map (fun _ => ()) s p
  have hq := a.writeProgram_map (fun _ => ()) s q
  have hthird : a.writeProgram s p.erase = a.writeProgram s q.erase := congrArg _ h
  have hsheets := congrArg Prod.fst (hp.symm.trans (hthird.trans hq))
  exact hsheets

theorem Allocator.compile_erased (a : Allocator) (unit : String) :
    Agree Eq (fun e e' => e.erase = e'.erase ∧ SameMessage e.message e'.message)
      (a.compile unit p) (a.compile unit q) := by
  have hp := a.compile_map (fun _ => ()) unit p
  have hq := a.compile_map (fun _ => ()) unit q
  have hthird : a.compile unit p.erase = a.compile unit q.erase := congrArg _ h
  exact Agree.of_mapError (fun _ _ he => ⟨he, CompileError.sameMessage he⟩)
    (hp.symm.trans (hthird.trans hq))

end Erased

section Erased

variable {fn fn' : Function Span} (h : (fn.map fun _ => ()) = fn'.map fun _ => ())

include h

theorem Function.liveness_erased :
    Agree Eq (fun e e' => e.erase = e'.erase ∧ SameMessage e.message e'.message)
      fn.liveness fn'.liveness := by
  have hthird := congrArg Function.liveness h
  rw [fn.liveness_map, fn'.liveness_map] at hthird
  exact Agree.of_mapError (fun _ _ he => ⟨he, FlowError.sameMessage he⟩) hthird

theorem Function.frame_erased (m : Allocation) (live : Liveness) :
    fn.frame m live = fn'.frame m live := by
  have hthird := congrArg (fun fn => Function.frame fn m live) h
  rwa [fn.frame_map, fn'.frame_map] at hthird

end Erased

/-- **Spans never influence a result.**  The reader makes the same program of tokens that
are alike, or fails in the same way; and programs that are the same but for the spans have
the same liveness, places and frames, and the same text as far as it is written. -/
theorem spans_irrelevant :
    (∀ ts us : List Token, (∃ t ∈ ts, t.kind = .eof) → List.Forall₂ Token.Alike ts us →
      Agree (fun p q => p.erase = q.erase)
        (fun e e' => e.Alike e' ∧ SameMessage e.message e'.message) (parse ts) (parse us)) ∧
    ∀ p q : Program Span, p.erase = q.erase →
      List.Forall₂ (fun fn fn' =>
        Agree Eq (fun e e' => e.erase = e'.erase ∧ SameMessage e.message e'.message)
          fn.liveness fn'.liveness ∧
        (∀ (e : Enumeration) (a : Allocator) live,
          a.allocateBy e fn live = a.allocateBy e fn' live) ∧
        ∀ m live, fn.frame m live = fn'.frame m live) p.functions q.functions ∧
      ∀ a : Allocator,
        (∀ s, (a.writeProgram s p).1 = (a.writeProgram s q).1) ∧
        ∀ unit, Agree Eq (fun e e' => e.erase = e'.erase ∧ SameMessage e.message e'.message)
          (a.compile unit p) (a.compile unit q) := by
  constructor
  · intro ts us heof halike
    exact parse_agree (List.mem_map.mpr heof) halike
  · intro p q h
    refine ⟨(Program.functions_erased h).imp ?_, fun a =>
      ⟨a.writeProgram_erased h, a.compile_erased h⟩⟩
    intro fn fn' hfn
    refine ⟨Function.liveness_erased hfn, fun e a live => ?_, Function.frame_erased hfn⟩
    rw [a.allocateBy_eq, a.allocateBy_eq]

/-- The tokens of the program in another text. -/
def Sample.moved : List Token :=
  Sample.tokens.map (Token.map fun _ => ⟨⟨"elsewhere", 40, 3, 7⟩, ⟨"elsewhere", 44, 3, 11⟩⟩)

/-- The moved tokens make the same program, and it has the same text. -/
theorem spans_irrelevant_sample :
    (∃ t ∈ Sample.tokens, t.kind = .eof) ∧ List.Forall₂ Token.Alike Sample.tokens Sample.moved ∧
      ∃ q text, parse Sample.moved = .ok q ∧ Sample.program.erase = q.erase ∧
        ({} : Allocator).compile "  " Sample.program = .ok text ∧
        ({} : Allocator).compile "  " q = .ok text := by
  have heof : ∃ t ∈ Sample.tokens, t.kind = .eof := ⟨Sample.token .eof "", by decide, rfl⟩
  have halike : List.Forall₂ Token.Alike Sample.tokens Sample.moved := by
    rw [Sample.moved, List.forall₂_map_right_iff, List.forall₂_same]
    exact fun t _ => ⟨rfl, rfl⟩
  have hparse := spans_irrelevant.1 _ _ heof halike
  rw [Sample.parse_tokens] at hparse
  obtain ⟨q, hq, herase⟩ := hparse.exists_ok
  obtain ⟨text, htext⟩ : ∃ text, ({} : Allocator).compile "  " Sample.program = .ok text :=
    ⟨_, rfl⟩
  have hcompile := ((spans_irrelevant.2 _ q herase).2 {}).2 "  "
  rw [htext] at hcompile
  obtain ⟨text', htext', rfl⟩ := hcompile.exists_ok
  exact ⟨heof, halike, q, text, hq, herase, htext, htext'⟩

end Vapor
