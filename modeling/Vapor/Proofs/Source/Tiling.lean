/-
Vapor/Proofs/Source/Tiling.lean

The tokens of a text tile it (`lex_tiles`): each is the part of the text that its span says,
in the order of the text, and between them there are only blanks, comments and the ends of
lines that have no token.

Two things are kept track of along a run of the reader.  `Covered` says how the tokens so far
lie in the text before the place that has been reached; a step either puts one more token at
its end or goes on with the gap behind the last one (`Step.effect`).  `Lined` says how they
are spread over the lines; here it matters whether the line has been used.  The end of the text
is one more place at which tokens come out, so it needs no argument of its own.
-/
import Mathlib.Data.List.Chain
import Vapor.Proofs.Source.Scanning

namespace Vapor

/-! ### Parts of a text -/

/-- The characters of a text from one offset up to another. -/
def slice (text : List Char) (i j : Nat) : List Char :=
  (text.take j).drop i

/-- The position at an offset of a text. -/
def Pos.ofOffset (path : String) (text : List Char) (k : Nat) : Pos :=
  .behind path (text.take k)

variable {path : String} {text : List Char}

theorem Pos.offset_ofOffset {k : Nat} (hk : k ≤ text.length) :
    (ofOffset path text k).offset = k :=
  List.length_take_of_le hk

theorem slice_self (k : Nat) : slice text k k = [] := by
  simp [slice]

theorem slice_append {i j k : Nat} (hij : i ≤ j) (hjk : j ≤ k) :
    slice text i j ++ slice text j k = slice text i k := by
  obtain ⟨m, rfl⟩ := Nat.exists_eq_add_of_le hij
  obtain ⟨n, rfl⟩ := Nat.exists_eq_add_of_le hjk
  simp only [slice, List.drop_take]
  rw [Nat.add_assoc, Nat.add_sub_cancel_left, Nat.add_sub_cancel_left, List.take_add,
    List.drop_drop, Nat.add_sub_add_left, Nat.add_sub_cancel_left]

theorem slice_append_drop {j k : Nat} (h : j ≤ k) : slice text j k ++ text.drop k = text.drop j := by
  obtain ⟨n, rfl⟩ := Nat.exists_eq_add_of_le h
  rw [slice, List.drop_take, Nat.add_sub_cancel_left, ← List.drop_drop, List.take_append_drop]

/-- A later place is on the same line or on a later one. -/
theorem Pos.line_ofOffset_mono {j k : Nat} (h : j ≤ k) :
    (ofOffset path text j).line ≤ (ofOffset path text k).line :=
  Nat.add_le_add_left ((List.take_prefix_take_left h).sublist.count_le '\n') 1

/-- A line feed in between makes it a later line. -/
theorem Pos.line_ofOffset_lt {j k : Nat} (h : j < k) (hj : text[j]? = some '\n') :
    (ofOffset path text j).line < (ofOffset path text k).line := by
  have hline : (ofOffset path text (j + 1)).line = (ofOffset path text j).line + 1 := by
    simp [ofOffset, behind, List.take_add_one, hj, Nat.add_assoc]
  have hmono : (ofOffset path text (j + 1)).line ≤ (ofOffset path text k).line :=
    line_ofOffset_mono h
  omega

/-! ### Gaps -/

/-- A text without tokens: blanks, line feeds, and comments that reach up to the end of their
line.  What comes after the gap decides whether a comment at its end is complete. -/
inductive Gap : List Char → List Char → Prop where
  | nil {after : List Char} : Gap [] after
  | blank {c : Char} {gap after : List Char} (hc : isBlank c = true) (h : Gap gap after) :
      Gap (c :: gap) after
  | newline {gap after : List Char} (h : Gap gap after) : Gap ('\n' :: gap) after
  | comment {words gap after : List Char} (hwords : '\n' ∉ words)
      (hend : ∀ c ∈ (gap ++ after).head?, c = '\n') (h : Gap gap after) :
      Gap ('/' :: '/' :: words ++ gap) after

theorem Gap.append {gap gap' after : List Char} (h : Gap gap (gap' ++ after))
    (h' : Gap gap' after) : Gap (gap ++ gap') after := by
  generalize hafter : gap' ++ after = whole at h
  induction h with
  | nil => exact h'
  | blank hc _ ih => exact .blank hc (ih hafter)
  | newline _ ih => exact .newline (ih hafter)
  | comment hwords hend _ ih =>
    subst hafter
    rw [List.append_assoc]
    refine .comment hwords ?_ (ih rfl)
    rwa [List.append_assoc]

theorem isChain_concat {α : Type} {R : α → α → Prop} {l : List α} {x : α} :
    (l ++ [x]).IsChain R ↔ l.IsChain R ∧ ∀ y ∈ l.getLast?, R y x := by
  simp [List.isChain_append]

/-- One span follows another, with a gap between them. -/
structure Apart (text : List Char) (a b : Span) : Prop where
  le : a.stop.offset ≤ b.start.offset
  gap : Gap (slice text a.stop.offset b.start.offset) (text.drop b.start.offset)

/-! ### Tokens in their places -/

/-- The token is the part of the text that its span says. -/
structure Token.Placed (path : String) (text : List Char) (t : Token) : Prop where
  start : t.span.start = .ofOffset path text t.span.start.offset
  stop : t.span.stop = .ofOffset path text t.span.stop.offset
  forward : t.span.start.offset ≤ t.span.stop.offset
  inside : t.span.stop.offset ≤ text.length
  lexeme : t.lexeme.toList = slice text t.span.start.offset t.span.stop.offset

/-- The tokens cover the text up to an offset, except for gaps. -/
structure Covered (path : String) (text : List Char) (k : Nat) (out : List Token) : Prop where
  le : k ≤ text.length
  placed : ∀ t ∈ out, t.Placed path text
  before : ∀ t ∈ out, t.span.stop.offset ≤ k
  ordered : out.Pairwise fun t u => t.span.stop.offset ≤ u.span.start.offset
  gaps : (Span.at (.first path) :: out.map Token.span ++ [Span.at (.ofOffset path text k)]).IsChain
    (Apart text)

namespace Covered

variable {k k' : Nat} {out : List Token}

theorem nil : Covered path text 0 [] where
  le := Nat.zero_le _
  placed := List.forall_mem_nil _
  before := List.forall_mem_nil _
  ordered := .nil
  gaps := by
    refine List.isChain_pair.mpr ⟨Nat.le_refl _, ?_⟩
    exact .nil

/-- One more token may stand where the others end. -/
theorem emit {t : Token} (h : Covered path text k out) (hkk : k ≤ k') (hk : k' ≤ text.length)
    (hspan : t.span = ⟨.ofOffset path text k, .ofOffset path text k'⟩)
    (hlexeme : t.lexeme.toList = slice text k k') : Covered path text k' (out ++ [t]) := by
  have hstart : t.span.start.offset = k := by rw [hspan, Pos.offset_ofOffset h.le]
  have hstop : t.span.stop.offset = k' := by rw [hspan, Pos.offset_ofOffset hk]
  refine ⟨hk, ?_, ?_, ?_, ?_⟩
  · intro u hu
    rcases List.mem_append.mp hu with hu | hu
    · exact h.placed u hu
    · obtain rfl := List.mem_singleton.mp hu
      exact ⟨by rw [hstart, hspan], by rw [hstop, hspan], by omega, by omega,
        by rw [hstart, hstop, hlexeme]⟩
  · intro u hu
    rcases List.mem_append.mp hu with hu | hu
    · exact Nat.le_trans (h.before u hu) hkk
    · obtain rfl := List.mem_singleton.mp hu
      exact Nat.le_of_eq hstop
  · refine List.pairwise_append.mpr ⟨h.ordered, List.pairwise_singleton _ _, ?_⟩
    intro u hu v hv
    obtain rfl := List.mem_singleton.mp hv
    rw [hstart]
    exact h.before u hu
  · -- the gap before the token is the one that was left open
    obtain ⟨hchain, hlast⟩ := isChain_concat.mp h.gaps
    rw [List.map_append, ← List.cons_append]
    refine isChain_concat.mpr ⟨isChain_concat.mpr ⟨hchain, fun a ha => ?_⟩, fun a ha => ?_⟩
    · obtain ⟨hle, hgap⟩ := hlast a ha
      refine ⟨?_, ?_⟩ <;> rwa [hspan]
    · obtain rfl : t.span = a := Option.some.inj (List.getLast?_concat.symm.trans ha)
      refine ⟨by rw [hspan]; exact Nat.le_refl _, ?_⟩
      rw [hspan, show (Span.at (Pos.ofOffset path text k')).start = .ofOffset path text k' from rfl,
        slice_self]
      exact .nil

/-- The gap behind the last token may go on. -/
theorem skip (h : Covered path text k out) (hkk : k ≤ k') (hk : k' ≤ text.length)
    (hgap : Gap (slice text k k') (text.drop k')) : Covered path text k' out := by
  refine ⟨hk, h.placed, fun t ht => Nat.le_trans (h.before t ht) hkk, h.ordered, ?_⟩
  obtain ⟨hchain, hlast⟩ := isChain_concat.mp h.gaps
  refine isChain_concat.mpr ⟨hchain, fun a ha => ?_⟩
  obtain ⟨hle, hopen⟩ := hlast a ha
  have hoffset : (Span.at (Pos.ofOffset path text k)).start.offset = k := Pos.offset_ofOffset h.le
  have hoffset' : (Span.at (Pos.ofOffset path text k')).start.offset = k' := Pos.offset_ofOffset hk
  rw [hoffset] at hle hopen
  refine ⟨by omega, ?_⟩
  rw [hoffset', ← slice_append hle hkk]
  refine .append ?_ hgap
  rwa [slice_append_drop hkk]

end Covered

/-! ### The reader in its text -/

namespace Scanner

/-- The reader stands at an offset of a text. -/
structure At (path : String) (text : List Char) (k : Nat) (s : Scanner) : Prop where
  le : k ≤ text.length
  pos : s.pos = .ofOffset path text k
  rest : s.rest = text.drop k

variable {k : Nat} {s s' : Scanner} {ts : List Token}

theorem at_start (path source : String) : At path source.toList 0 (start path source) :=
  ⟨Nat.zero_le _, rfl, rfl⟩

/-- The characters that lie ahead are those of the text. -/
theorem At.ahead {w after : List Char} (hs : At path text k s) (hw : s.rest = w ++ after) :
    text.take (k + w.length) = text.take k ++ w ∧ k + w.length ≤ text.length := by
  have hrest := hw.symm.trans hs.rest
  refine ⟨by rw [List.take_add, ← hrest, List.take_left], ?_⟩
  have hlen := congrArg List.length hrest
  rw [List.length_append, List.length_drop] at hlen
  have := hs.le
  omega

/-- A step goes from one offset to another.  What lies between them is a token, or it goes on
with a gap; and a line ends in a gap only if it has not been used. -/
theorem Step.effect (h : Step s ts s') (hs : At path text k s) :
    ∃ k', k ≤ k' ∧ At path text k' s' ∧
      ((∃ t, ts = [t] ∧ t.span = ⟨s.pos, s'.pos⟩ ∧ t.lexeme.toList = slice text k k') ∨
        ts = [] ∧ Gap (slice text k k') s'.rest ∧ ('\n' ∈ slice text k k' → s.used = false)) := by
  obtain ⟨w, hw, -, hpos⟩ := h.reads
  have hrest := hw.symm.trans hs.rest
  have hslice : slice text k (k + w.length) = w := by
    rw [slice, List.drop_take, ← hrest, Nat.add_sub_cancel_left, List.take_left]
  obtain ⟨htake, hle⟩ := hs.ahead hw
  refine ⟨k + w.length, Nat.le_add_right _ _, ⟨hle, ?_, ?_⟩, ?_⟩
  · rw [Pos.ofOffset, htake]
    rcases hpos with ⟨rfl, hpos⟩ | ⟨hline, hpos⟩
    · rw [hpos, hs.pos, Pos.ofOffset, Pos.next_behind]
    · rw [hpos, hs.pos, Pos.ofOffset, Pos.right_behind _ _ hline]
  · rw [← List.drop_drop, ← hrest, List.drop_left]
  · rw [hslice]
    cases h with
    | @newline p used rest =>
      obtain rfl : w = ['\n'] := List.append_cancel_right hw.symm
      cases used with
      | true => exact .inl ⟨_, rfl, rfl, by simp⟩
      | false => exact .inr ⟨rfl, .newline .nil, fun _ => rfl⟩
    | @blank p used c rest hc =>
      obtain rfl : w = [c] := List.append_cancel_right hw.symm
      refine .inr ⟨rfl, .blank hc .nil, fun hline => ?_⟩
      exact absurd (List.mem_singleton.mp hline).symm (ne_newline_of_isBlank hc)
    | @comment p used words rest hwords hend =>
      obtain rfl : w = '/' :: '/' :: words := List.append_cancel_right hw.symm
      refine .inr ⟨rfl, ?_, fun hline => absurd hline (newline_not_mem_comment hwords)⟩
      have hgap : Gap ('/' :: '/' :: words ++ []) rest := .comment hwords hend .nil
      rwa [List.append_nil] at hgap
    | @word p used kind w' rest hword =>
      obtain rfl : w = w' := List.append_cancel_right hw.symm
      exact .inl ⟨_, rfl, rfl, String.toList_ofList⟩

end Scanner

/-! ### Tokens on their lines -/

/-- The tokens that begin on a line, without the one that ends the text. -/
def onLine (tokens : List Token) (n : Nat) : List Token :=
  tokens.filter fun t => t.span.start.line = n ∧ t.kind ≠ .eof

/-- The tokens of a line: if there are any, then the last one and no other ends the line, and
it is not the only one. -/
def LineClosed (ts : List Token) : Prop :=
  ts = [] ∨ ∃ words last, ts = words ++ [last] ∧ words ≠ [] ∧
    (∀ t ∈ words, t.kind ≠ .newline) ∧ last.kind = .newline

/-- How the tokens are spread over the lines, where the reader has come to a line that may
have been used. -/
structure Lined (line : Nat) (used : Bool) (out : List Token) : Prop where
  inner : ∀ t ∈ out, t.kind ≠ .eof
  le : ∀ t ∈ out, t.span.start.line ≤ line
  unused : used = false → ∀ t ∈ out, t.span.start.line < line
  closed : ∀ n < line, LineClosed (onLine out n)
  opened : used = true → onLine out line ≠ [] ∧ ∀ t ∈ onLine out line, t.kind ≠ .newline
  apart : out.IsChain fun t u => t.kind = .newline → u.kind ≠ .newline
  head : ∀ t ∈ out.head?, t.kind ≠ .newline
  last : used = true → ∃ t ∈ out.getLast?, t.kind ≠ .newline

namespace Lined

variable {line : Nat} {used : Bool} {out : List Token} {t : Token}

theorem onLine_eq_nil (h : ∀ t ∈ out, t.span.start.line ≠ line) : onLine out line = [] := by
  refine List.filter_eq_nil_iff.mpr fun t ht => ?_
  simp [h t ht]

theorem onLine_concat_of_ne (h : t.span.start.line ≠ line) :
    onLine (out ++ [t]) line = onLine out line := by
  simp [onLine, h]

theorem onLine_concat (ht : t.kind ≠ .eof) :
    onLine (out ++ [t]) t.span.start.line = onLine out t.span.start.line ++ [t] := by
  simp [onLine, ht]

theorem nil (line : Nat) : Lined line false [] where
  inner := List.forall_mem_nil _
  le := List.forall_mem_nil _
  unused := fun _ => List.forall_mem_nil _
  closed := fun _ _ => .inl rfl
  opened := nofun
  apart := .nil
  head := by simp
  last := nofun

theorem forall_mem_concat {P : Token → Prop} (h : ∀ u ∈ out, P u) (ht : P t) :
    ∀ u ∈ out ++ [t], P u := by
  intro u hu
  rcases List.mem_append.mp hu with hu | hu
  · exact h u hu
  · exact List.mem_singleton.mp hu ▸ ht

/-- A word is added to its line. -/
theorem word (h : Lined line used out) (hline : t.span.start.line = line)
    (hkind : t.kind ≠ .newline ∧ t.kind ≠ .eof) : Lined line true (out ++ [t]) where
  inner := forall_mem_concat h.inner hkind.2
  le := forall_mem_concat h.le (Nat.le_of_eq hline)
  unused := nofun
  closed := by
    intro n hn
    rw [onLine_concat_of_ne (by omega)]
    exact h.closed n hn
  opened := by
    intro _
    subst hline
    rw [onLine_concat hkind.2]
    refine ⟨by simp, forall_mem_concat ?_ hkind.1⟩
    cases used with
    | true => exact (h.opened rfl).2
    | false =>
      rw [onLine_eq_nil fun u hu => Nat.ne_of_lt (h.unused rfl u hu)]
      exact nofun
  apart := isChain_concat.mpr ⟨h.apart, fun _ _ _ => hkind.1⟩
  head := by
    intro u hu
    cases out with
    | nil =>
      cases hu
      exact hkind.1
    | cons v out => exact h.head u hu
  last := fun _ => ⟨t, List.getLast?_concat, hkind.1⟩

/-- The end of a line that has been used is a token. -/
theorem newline (h : Lined line true out) (hline : t.span.start.line = line)
    (hkind : t.kind = .newline) : Lined (line + 1) false (out ++ [t]) where
  inner := forall_mem_concat h.inner (by simp [hkind])
  le := forall_mem_concat (fun u hu => Nat.le_succ_of_le (h.le u hu)) (by omega)
  unused := fun _ => forall_mem_concat (fun u hu => Nat.lt_succ_of_le (h.le u hu)) (by omega)
  closed := by
    intro n hn
    subst hline
    by_cases heq : t.span.start.line = n
    · subst heq
      obtain ⟨hne, hwords⟩ := h.opened rfl
      exact .inr ⟨_, t, onLine_concat (by simp [hkind]), hne, hwords, hkind⟩
    · rw [onLine_concat_of_ne heq]
      exact h.closed n (by omega)
  opened := nofun
  apart := by
    refine isChain_concat.mpr ⟨h.apart, fun u hu hu' => ?_⟩
    obtain ⟨v, hv, hv'⟩ := h.last rfl
    obtain rfl := Option.mem_unique hu hv
    exact absurd hu' hv'
  head := by
    obtain ⟨v, hv, -⟩ := h.last rfl
    intro u hu
    cases out with
    | nil => cases hv
    | cons w out => exact h.head u hu
  last := nofun

/-- The end of a line that has not been used is none. -/
theorem blankLine (h : Lined line false out) : Lined (line + 1) false out where
  inner := h.inner
  le := fun u hu => Nat.le_succ_of_le (h.le u hu)
  unused := fun _ u hu => Nat.lt_succ_of_le (h.le u hu)
  closed := by
    intro n hn
    by_cases hlt : n < line
    · exact h.closed n hlt
    · refine .inl (onLine_eq_nil fun u hu => ?_)
      have := h.unused rfl u hu
      omega
  opened := nofun
  apart := h.apart
  head := h.head
  last := nofun

/-- All lines are closed where the last one has not been used. -/
theorem lineClosed (h : Lined line false out) (n : Nat) : LineClosed (onLine out n) := by
  by_cases hn : n < line
  · exact h.closed n hn
  · refine .inl (onLine_eq_nil fun t ht => ?_)
    have := h.unused rfl t ht
    omega

end Lined

namespace Scanner

variable {s s' : Scanner} {ts : List Token}

/-- What a step does to the lines. -/
theorem Step.lined {out : List Token} (h : Step s ts s') (hout : Lined s.pos.line s.used out) :
    Lined s'.pos.line s'.used (out ++ ts) := by
  cases h with
  | @newline p used rest =>
    have hnext : (p.next '\n').line = p.line + 1 := rfl
    cases used with
    | true => exact hnext ▸ hout.newline rfl rfl
    | false =>
      rw [show lineEnd false "\n" p (p.next '\n') = [] from rfl, List.append_nil]
      exact hnext ▸ hout.blankLine
  | blank _ =>
    rw [List.append_nil]
    exact hout
  | comment _ _ =>
    rw [List.append_nil]
    exact hout
  | word hw => exact hout.word rfl hw.kind_ne

end Scanner

/-! ### Line feeds between tokens -/

/-- Before this offset, a line feed that is in no token ends a line without tokens. -/
def BreaksUnused (path : String) (text : List Char) (k : Nat) (out : List Token) : Prop :=
  ∀ j < k, text[j]? = some '\n' →
    (∀ t ∈ out, ¬(t.span.start.offset ≤ j ∧ j < t.span.stop.offset)) →
      ∀ t ∈ out, t.span.start.line ≠ (Pos.ofOffset path text j).line

namespace BreaksUnused

variable {k k' : Nat} {out : List Token}

theorem emit {t : Token} (h : BreaksUnused path text k out) (hk : k ≤ text.length)
    (hk' : k' ≤ text.length) (hspan : t.span = ⟨.ofOffset path text k, .ofOffset path text k'⟩) :
    BreaksUnused path text k' (out ++ [t]) := by
  intro j hj hline hfree
  have hstart : t.span.start.offset = k := by rw [hspan, Pos.offset_ofOffset hk]
  have hstop : t.span.stop.offset = k' := by rw [hspan, Pos.offset_ofOffset hk']
  have hjk : j < k := by
    have := hfree t (by simp)
    omega
  refine Lined.forall_mem_concat ?_ ?_
  · exact h j hjk hline fun u hu => hfree u (List.mem_append_left _ hu)
  · rw [hspan]
    exact Nat.ne_of_gt (Pos.line_ofOffset_lt hjk hline)

theorem skip (h : BreaksUnused path text k out)
    (hgap : '\n' ∈ slice text k k' → ∀ t ∈ out, t.span.start.line < (Pos.ofOffset path text k).line) :
    BreaksUnused path text k' out := by
  intro j hj hline hfree t ht
  by_cases hjk : j < k
  · exact h j hjk hline hfree t ht
  · -- the line feed is in the gap, so no token is on the line where the gap begins
    have hmem : '\n' ∈ slice text k k' := by
      have hget : (slice text k k')[j - k]? = some '\n' := by
        rw [slice, List.getElem?_drop, List.getElem?_take_of_lt (by omega),
          Nat.add_sub_cancel' (by omega), hline]
      exact List.mem_of_getElem? hget
    have hlt := hgap hmem t ht
    have hle : (Pos.ofOffset path text k).line ≤ (Pos.ofOffset path text j).line :=
      Pos.line_ofOffset_mono (by omega)
    omega

end BreaksUnused

/-! ### Whole texts -/

/-- All that is known of the tokens before an offset. -/
structure Tiled (path : String) (text : List Char) (k : Nat) (used : Bool) (out : List Token) :
    Prop where
  covered : Covered path text k out
  lined : Lined (Pos.ofOffset path text k).line used out
  breaks : BreaksUnused path text k out

namespace Scanner

variable {s : Scanner} {ts : List Token}

theorem Run.tiled {source : String} (h : Run (start path source) ts s) :
    ∃ k, At path source.toList k s ∧ Tiled path source.toList k s.used ts := by
  refine h.invariant (I := fun out s => ∃ k, At path source.toList k s ∧
    Tiled path source.toList k s.used out) ⟨0, at_start path source, .nil, .nil _, nofun⟩ ?_
  rintro out s ts s' ⟨k, hs, hcovered, hlined, hbreaks⟩ hstep
  rw [← hs.pos] at hlined
  obtain ⟨k', hkk, hs', heffect⟩ := hstep.effect hs
  have hlined' := hstep.lined hlined
  rw [hs'.pos] at hlined'
  refine ⟨k', hs', ?_, hlined', ?_⟩
  · rcases heffect with ⟨t, rfl, hspan, hlexeme⟩ | ⟨rfl, hgap, -⟩
    · rw [hs.pos, hs'.pos] at hspan
      exact hcovered.emit hkk hs'.le hspan hlexeme
    · rw [hs'.rest] at hgap
      rw [List.append_nil]
      exact hcovered.skip hkk hs'.le hgap
  · rcases heffect with ⟨t, rfl, hspan, -⟩ | ⟨rfl, -, hunused⟩
    · rw [hs.pos, hs'.pos] at hspan
      exact hbreaks.emit hs.le hs'.le hspan
    · rw [List.append_nil]
      refine hbreaks.skip fun hline => ?_
      rw [← hs.pos]
      exact hlined.unused (hunused hline)

end Scanner

/-- The token for the end of a text. -/
def eofToken (path : String) (text : List Char) : Token :=
  ⟨.eof, "", .at (.ofOffset path text text.length)⟩

/-- At the end of the text the last line is ended if it has been used, and the text is. -/
theorem lex_tiled {source : String} {tokens : List Token} (h : lex path source = .ok tokens) :
    ∃ body, tokens = body ++ [eofToken path source.toList] ∧
      (∃ line, Lined line false body) ∧
      Covered path source.toList source.toList.length tokens ∧
      BreaksUnused path source.toList source.toList.length tokens := by
  obtain ⟨ts, s, hrun, hend, rfl⟩ := lex_eq_ok_iff.mp h
  obtain ⟨k, hs, hcovered, hlined, hbreaks⟩ := hrun.tiled
  obtain rfl : k = source.toList.length :=
    Nat.le_antisymm hs.le (List.drop_eq_nil_iff.mp (hs.rest.symm.trans hend))
  have hempty : "".toList = slice source.toList source.toList.length source.toList.length := by
    simp [slice]
  obtain ⟨p, used, rest⟩ := s
  obtain rfl : p = .ofOffset path source.toList source.toList.length := hs.pos
  cases used with
  | false =>
    exact ⟨ts, rfl, ⟨_, hlined⟩, hcovered.emit (Nat.le_refl _) hs.le rfl hempty,
      hbreaks.emit hs.le hs.le rfl⟩
  | true =>
    -- the end of the line is a token without characters
    refine ⟨_, (List.append_assoc ..).symm, ⟨_, hlined.newline rfl rfl⟩, ?_, ?_⟩
    · exact List.append_assoc .. ▸
        (hcovered.emit (Nat.le_refl _) hs.le rfl hempty).emit (Nat.le_refl _) hs.le rfl hempty
    · exact List.append_assoc .. ▸ (hbreaks.emit hs.le hs.le rfl).emit hs.le hs.le rfl

/-- The tokens tile the text. -/
structure Tiling (path : String) (text : List Char) (tokens : List Token) : Prop where
  /-- Each token is the part of the text that its span says, and its positions are counted
  along the text. -/
  placed : ∀ t ∈ tokens, t.Placed path text
  /-- The spans are in order and do not overlap. -/
  ordered : tokens.Pairwise fun t u => t.span.stop.offset ≤ u.span.start.offset
  /-- Between one token and the next, and before the first, there is only a gap. -/
  gaps : (Span.at (.first path) :: tokens.map Token.span).IsChain (Apart text)
  /-- A line that ends in a gap has no tokens. -/
  breaks : BreaksUnused path text text.length tokens
  /-- The end of the text is the last token, and no other token is. -/
  eof : ∃ body, tokens = body ++ [eofToken path text] ∧ ∀ t ∈ body, t.kind ≠ .eof
  /-- One newline token stands behind the other tokens of a line, if there are any. -/
  lines : ∀ n, LineClosed (onLine tokens n)
  /-- No newline token follows another one, and none is the first. -/
  newlines : (tokens.IsChain fun t u => t.kind = .newline → u.kind ≠ .newline) ∧
    ∀ t ∈ tokens.head?, t.kind ≠ .newline

/-- **The tokens of a text tile it.** -/
theorem lex_tiles {source : String} {tokens : List Token} (h : lex path source = .ok tokens) :
    Tiling path source.toList tokens := by
  obtain ⟨body, rfl, ⟨line, hlined⟩, hcovered, hbreaks⟩ := lex_tiled h
  refine ⟨hcovered.placed, hcovered.ordered, (isChain_concat.mp hcovered.gaps).1, hbreaks,
    ⟨body, rfl, hlined.inner⟩, fun n => ?_, isChain_concat.mpr ⟨hlined.apart, ?_⟩, ?_⟩
  · have heof : onLine (body ++ [eofToken path source.toList]) n = onLine body n := by
      simp [onLine, eofToken]
    rw [heof]
    exact hlined.lineClosed n
  · exact fun _ _ _ => nofun
  · intro t ht
    cases body with
    | nil =>
      cases ht
      exact nofun
    | cons u body => exact hlined.head t ht

namespace Sample

/-- A text with comments, an empty line, blanks of all kinds and marks of comments and quotes
in places where they mean nothing.  Its last line has no line feed. -/
def source : String :=
  "\t// head\r\n\nfunc F(x) // \"no\" text\r\n\n  x = \"a\\\"//b\"\nret -12"

end Sample

/-- The sample has these tokens, and they tile it. -/
theorem lex_tiles_sample : ∃ tokens, lex "sample" Sample.source = .ok tokens ∧
    tokens.map Token.lexeme = ["func", "F", "(", "x", ")", "\n", "x", "=", "\"a\\\"//b\"", "\n",
      "ret", "-12", "", ""] ∧
    Tiling "sample" Sample.source.toList tokens := by
  have hlexemes : (lex "sample" Sample.source).toOption.map (·.map Token.lexeme) =
      some ["func", "F", "(", "x", ")", "\n", "x", "=", "\"a\\\"//b\"", "\n", "ret", "-12", "",
        ""] := by
    decide +kernel
  rcases hlex : lex "sample" Sample.source with e | tokens
  · rw [hlex] at hlexemes
    exact nomatch hlexemes
  · rw [hlex] at hlexemes
    exact ⟨tokens, rfl, Option.some.inj hlexemes, lex_tiles hlex⟩

end Vapor
