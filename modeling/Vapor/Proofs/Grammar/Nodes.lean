/-
Vapor/Proofs/Grammar/Nodes.lean

Programs as nodes that come from tokens.  A node comes from consecutive tokens, and its span
reaches from the first of them to the last (`Extent`).  The nodes that it is made of come from
some of these tokens, one behind the other (`Among`); so they lie in its span, in their order
(`Among.nested`).

What a node comes from is said for each kind of node by a relation `From`.  The tokens of an
instruction are all words, that is, they stand on one line.  Those of a function end with its
last label or instruction, and those of a segment with the last end of a line.
-/
import Vapor.Proofs.Grammar.Sound
import Vapor.Proofs.Source.Extent

namespace Vapor

/-! ### Nodes among tokens -/

/-- Among the tokens are those of the nodes, of one node behind those of another.  The tokens in
between have the property `P`. -/
inductive Among {β : Type} (P : Token → Prop) (R : List Token → β → Prop) :
    List Token → List β → Prop where
  | nil : Among P R [] []
  | skip {t : Token} {ts : List Token} {bs : List β} (ht : P t) (h : Among P R ts bs) :
      Among P R (t :: ts) bs
  | node {us ts : List Token} {b : β} {bs : List β} (hb : R us b) (h : Among P R ts bs) :
      Among P R (us ++ ts) (b :: bs)

namespace Among

variable {β : Type} {P : Token → Prop} {R : List Token → β → Prop} {ts us : List Token}
  {b : β} {bs cs : List β}

theorem append (h : Among P R ts bs) (h' : Among P R us cs) : Among P R (ts ++ us) (bs ++ cs) := by
  induction h with
  | nil => exact h'
  | skip ht _ ih => exact .skip ht ih
  | node hb _ ih =>
    rw [List.append_assoc]
    exact .node hb ih

theorem single (h : R ts b) : Among P R ts [b] := by
  simpa using Among.node (P := P) h .nil

/-- Tokens without nodes. -/
theorem none (h : ∀ t ∈ ts, P t) : Among P R ts [] := by
  induction ts with
  | nil => exact .nil
  | cons t ts ih =>
    rw [List.forall_mem_cons] at h
    exact .skip h.1 (ih h.2)

theorem concat {t : Token} (h : Among P R ts bs) (ht : P t) : Among P R (ts ++ [t]) bs := by
  simpa using h.append (.skip ht .nil)

/-- What holds of the tokens of the nodes, too, holds of all. -/
theorem forall_mem (h : Among P R ts bs) (hR : ∀ us b, R us b → ∀ t ∈ us, P t) :
    ∀ t ∈ ts, P t := by
  induction h with
  | nil => exact List.forall_mem_nil _
  | skip ht _ ih => exact List.forall_mem_cons.mpr ⟨ht, ih⟩
  | node hb _ ih => exact List.forall_mem_append.mpr ⟨hR _ _ hb, ih⟩

/-- Some of the nodes, seen in another way. -/
theorem filterMap {γ : Type} {R' : List Token → γ → Prop} {f : β → Option γ}
    (h : Among P R ts bs) (hR : ∀ us b, R us b → ∀ t ∈ us, P t)
    (hf : ∀ us b c, R us b → f b = some c → R' us c) : Among P R' ts (bs.filterMap f) := by
  induction h with
  | nil => exact .nil
  | skip ht _ ih => exact .skip ht ih
  | @node us _ b bs hb _ ih =>
    rcases hc : f b with - | c
    · rw [List.filterMap_cons_none hc]
      exact (none (hR us b hb)).append ih
    · rw [List.filterMap_cons_some hc]
      exact .node (hf us b c hb hc) ih

theorem exists_part (h : Among P R ts bs) (hb : b ∈ bs) : ∃ us, us <:+: ts ∧ R us b := by
  induction h with
  | nil => exact absurd hb List.not_mem_nil
  | skip _ _ ih =>
    obtain ⟨us, hus, hR⟩ := ih hb
    exact ⟨us, hus.trans (List.suffix_cons _ _).isInfix, hR⟩
  | @node us ts c bs hc _ ih =>
    rcases List.mem_cons.mp hb with rfl | hb
    · exact ⟨us, (List.prefix_append us ts).isInfix, hc⟩
    · obtain ⟨vs, hvs, hR⟩ := ih hb
      exact ⟨vs, hvs.trans (List.suffix_append us ts).isInfix, hR⟩

theorem eq_nil (h : Among P R [] bs) (hR : ∀ b, ¬R [] b) : bs = [] := by
  generalize hts : ([] : List Token) = ts at h
  cases h with
  | nil => rfl
  | skip _ _ => cases hts
  | @node us ts b bs hb _ =>
    obtain ⟨rfl, -⟩ := List.append_eq_nil_iff.mp hts.symm
    exact absurd hb (hR b)

end Among

/-- The nodes lie in the span, one behind the other. -/
structure Nested {β : Type} (note : β → Span) (whole : Span) (bs : List β) : Prop where
  inside : ∀ b ∈ bs, (note b).Inside whole
  ordered : bs.Pairwise fun a b => (note a).Before (note b)

section Text

variable {β : Type} {P : Token → Prop} {R : List Token → β → Prop} {ts : List Token} {bs : List β}
  {path : String} {text : List Char} {note : β → Span}

theorem Among.ordered (h : Among P R ts bs) (hts : Laid path text ts)
    (hR : ∀ us b, R us b → Extent us (note b)) :
    bs.Pairwise fun a b => (note a).Before (note b) := by
  induction h with
  | nil => exact .nil
  | skip _ _ ih => exact ih (hts.mono (List.suffix_cons _ _).isInfix)
  | @node us ts b bs hb h ih =>
    refine List.pairwise_cons.mpr ⟨fun c hc => ?_, ih (hts.mono (List.suffix_append us ts).isInfix)⟩
    obtain ⟨vs, hvs, hvs'⟩ := h.exists_part hc
    refine (hR us b hb).before (hR vs c hvs') fun t ht u hu => ?_
    exact (List.pairwise_append.mp hts.ordered).2.2 t ht u (hvs.subset hu)

/-- **Nodes among tokens of a text lie in what the tokens reach over**, in their order. -/
theorem Among.nested {whole : Span} (h : Among P R ts bs) (hts : Laid path text ts)
    (hwhole : Extent ts whole) (hR : ∀ us b, R us b → Extent us (note b)) :
    Nested note whole bs := by
  refine ⟨fun b hb => ?_, h.ordered hts hR⟩
  obtain ⟨us, hus, hus'⟩ := h.exists_part hb
  exact hts.inside hwhole hus (hR us b hus')

end Text

/-- Among tokens of any kind are those of the nodes. -/
abbrev Scattered {β : Type} (R : List Token → β → Prop) : List Token → List β → Prop :=
  Among (fun _ => True) R

theorem Scattered.widen {β : Type} {R : List Token → β → Prop} {ts us : List Token} {bs : List β}
    (h : Scattered R ts bs) (hts : ts <:+: us) : Scattered R us bs := by
  obtain ⟨before, behind, rfl⟩ := hts
  have hnone (vs : List Token) : Scattered R vs [] := .none fun _ _ => trivial
  simpa using ((hnone before).append h).append (hnone behind)

section Sum

variable {β γ : Type} {R : List Token → β ⊕ γ → Prop} {ts : List Token} {items : List (β ⊕ γ)}

/-- Of nodes of two kinds, those of the first kind. -/
theorem Scattered.left {L : List Token → β → Prop} (h : Scattered R ts items)
    (hL : ∀ us b, R us (.inl b) → L us b) : Scattered L ts (items.filterMap Sum.getLeft?) := by
  refine h.filterMap (fun _ _ _ _ _ => trivial) ?_
  rintro us (b | c) _ hR ⟨⟩
  exact hL us b hR

/-- Of nodes of two kinds, those of the second kind. -/
theorem Scattered.right {L : List Token → γ → Prop} (h : Scattered R ts items)
    (hL : ∀ us c, R us (.inr c) → L us c) : Scattered L ts (items.filterMap Sum.getRight?) := by
  refine h.filterMap (fun _ _ _ _ _ => trivial) ?_
  rintro us (b | c) _ hR ⟨⟩
  exact hL us c hR

end Sum

/-- The nodes are among the first of the tokens, and the last one of these ends at `q`.  If there
are none then `q` is the place `p` that had been reached before. -/
def Reaches {β : Type} (R : List Token → β → Prop) (ts : List Token) (bs : List β) (p q : Pos) :
    Prop :=
  ∃ used behind, ts = used ++ behind ∧ Scattered R used bs ∧
    (used.getLast?.map fun t => t.span.stop).getD p = q

namespace Reaches

variable {β : Type} {R : List Token → β → Prop} {ts us : List Token} {bs cs : List β}
  {p q : Pos} {a : Span}

theorem nil : Reaches R ts [] p p :=
  ⟨[], ts, rfl, .nil, rfl⟩

theorem skip (h : Reaches R ts bs p q) (us : List Token) : Reaches R (us ++ ts) bs p q := by
  obtain ⟨used, behind, rfl, hused, hq⟩ := h
  cases used with
  | nil => exact ⟨[], us ++ behind, rfl, hused, hq⟩
  | cons t used =>
    refine ⟨us ++ t :: used, behind, (List.append_assoc ..).symm,
      hused.widen (List.suffix_append us _).isInfix, ?_⟩
    rwa [List.getLast?_append_of_ne_nil _ (List.cons_ne_nil t used)]

/-- Tokens that end where the others go on. -/
theorem extend (h : Reaches R ts bs a.stop q) (ha : Extent us a) :
    ∃ used behind, ts = used ++ behind ∧ Scattered R used bs ∧ Extent (us ++ used) ⟨a.start, q⟩ := by
  obtain ⟨used, behind, rfl, hused, hq⟩ := h
  refine ⟨used, behind, rfl, hused, ?_⟩
  cases used with
  | nil =>
    obtain rfl : a.stop = q := hq
    rwa [List.append_nil]
  | cons t used =>
    have hlast := List.getLast?_eq_some_getLast (List.cons_ne_nil t used)
    rw [hlast] at hq
    have hext : Extent (t :: used) ⟨t.span.start, q⟩ := ⟨⟨t, rfl, rfl⟩, ⟨_, hlast, hq⟩⟩
    exact ha.append hext

theorem prepend (h : Reaches R ts bs a.stop q) (ha : Extent us a) (hus : Scattered R us cs)
    (p : Pos) : Reaches R (us ++ ts) (cs ++ bs) p q := by
  obtain ⟨used, behind, rfl, hused, hext⟩ := h.extend ha
  obtain ⟨t, ht, hstop⟩ := hext.last
  refine ⟨us ++ used, behind, (List.append_assoc ..).symm, hus.append hused, ?_⟩
  rw [ht]
  exact hstop

/-- In front of other nodes, tokens do not change how far these reach. -/
theorem cons {b : β} (h : Reaches R ts bs p q) (hbs : bs ≠ []) (hb : R us b)
    (hR : ∀ b, ¬R [] b) : Reaches R (us ++ ts) (b :: bs) p q := by
  obtain ⟨used, behind, rfl, hused, hq⟩ := h
  have hne : used ≠ [] := by
    rintro rfl
    exact hbs (hused.eq_nil hR)
  refine ⟨us ++ used, behind, (List.append_assoc ..).symm, .node hb hused, ?_⟩
  rwa [List.getLast?_append_of_ne_nil _ hne]

end Reaches

/-! ### Operands -/

/-- What is called, as an operand. -/
def Callee.operand : Callee Span → Operand Span
  | .var x => .var x
  | .label x => .label x

/-- A word of a data segment, as an operand. -/
def Datum.operand : Datum Span → Operand Span
  | .int n note => .int n note
  | .label x => .label x

/-- What an instruction is made of. -/
inductive Part where
  | operand (o : Operand Span)
  | address (a : Address Span)

/-- Where a part stands. -/
def Part.span : Part → Span
  | .operand o => o.note
  | .address a => a.note

/-- The variable that an instruction sets, if there is one. -/
def Part.ofDest (dest : Option (Ref Span)) : List Part :=
  dest.toList.map fun x => .operand (.var x)

/-- The parts of an instruction, in the order in which they are written. -/
def Instr.parts : Instr Span → List Part
  | .assign dest source _ => [.operand (.var dest), .operand source]
  | .call dest callee args _ => Part.ofDest dest ++ .operand callee.operand :: args.map .operand
  | .apply dest _ args _ => Part.ofDest dest ++ args.map .operand
  | .store dest source _ => [.address dest, .operand source]
  | .load dest source _ => [.operand (.var dest), .address source]
  | .branch test _ target _ => [.operand test, .operand (.label target)]
  | .goto target _ => [.operand (.label target)]
  | .ret value _ => value.toList.map .operand

/-- The operand comes from these tokens. -/
inductive Operand.From : List Token → Operand Span → Prop where
  | var {t : Token} (ht : t.kind = .ident) : From [t] (.var ⟨t.lexeme, t.span⟩)
  | int {t : Token} {n : Int} (ht : t.kind = .integer) (hn : Text.readInteger t.lexeme = .ok n) :
      From [t] (.int n t.span)
  | text {t : Token} (ht : t.kind = .text) : From [t] (.text t.lexeme t.span)
  | label {colon name : Token} (hcolon : colon.kind = .colon) (hname : name.kind = .ident) :
      From [colon, name] (.label ⟨name.lexeme, colon.span.join name.span⟩)

/-- The part comes from these tokens. -/
inductive Part.From : List Token → Part → Prop where
  | operand {us : List Token} {o : Operand Span} (h : o.From us) : From us (.operand o)
  | address {opening base close : Token} {offset : List Token} {n : Int}
      (hopening : opening.IsWord) (hbase : base.kind = .ident)
      (hoffset : ∀ t ∈ offset, t.IsWord) (hclose : close.IsWord) :
      From (opening :: base :: (offset ++ [close]))
        (.address ⟨⟨base.lexeme, base.span⟩, n, opening.span.join close.span⟩)

/-- The instruction comes from these tokens, all of which stand on its line. -/
structure Instr.From (used : List Token) (i : Instr Span) : Prop where
  extent : Extent used i.note
  parts : Among Token.IsWord Part.From used i.parts

/-- The parameter comes from these tokens. -/
abbrev Ref.From (used : List Token) (x : Ref Span) : Prop :=
  Operand.From used (.var x)

/-- The label comes from these tokens, without its colon. -/
abbrev Label.From (used : List Token) (l : Label Span) : Prop :=
  Operand.From used (.var ⟨l.name, l.note⟩)

/-- The word of a data segment comes from these tokens. -/
abbrev Datum.From (used : List Token) (d : Datum Span) : Prop :=
  d.operand.From used

/-- The instruction comes from these tokens, and they are derived from it. -/
def Instr.DerivedFrom (used : List Token) (i : Instr Span) : Prop :=
  i.From used ∧ ∃ rest, Grammar.InstrForm (used ++ rest) rest (i.map Grammar.forget)

/-- The segment comes from these tokens. -/
structure Segment.From (used : List Token) (s : Segment Span) : Prop where
  extent : Extent used s.note
  values : Scattered Datum.From used s.values

/-- The function comes from these tokens. -/
structure Function.From (used : List Token) (f : Function Span) : Prop where
  extent : Extent used f.note
  params : Scattered Ref.From used f.params
  body : Scattered Instr.DerivedFrom used f.body
  labels : Scattered Label.From used f.labels

/-- An instruction or a label comes from these tokens. -/
def LineFrom (used : List Token) : Instr Span ⊕ Label Span → Prop
  | .inl i => i.DerivedFrom used
  | .inr l => l.From used

/-- A segment or a function comes from these tokens. -/
def ItemFrom (used : List Token) : Segment Span ⊕ Function Span → Prop
  | .inl s => s.From used
  | .inr f => f.From used

/-- The program comes from these tokens. -/
structure Program.From (tokens : List Token) (p : Program Span) : Prop where
  extent : Extent tokens p.note
  items : ∃ items, p.segments = items.filterMap Sum.getLeft? ∧
    p.functions = items.filterMap Sum.getRight? ∧ Scattered ItemFrom tokens items

theorem Token.isWord_of_kind {t : Token} {kind : Token.Kind} (ht : t.kind = kind)
    (hkind : kind ≠ .newline ∧ kind ≠ .eof) : t.IsWord := by
  rwa [IsWord, ht]

theorem Operand.From.extent {us : List Token} {o : Operand Span} (h : o.From us) :
    Extent us o.note := by
  cases h with
  | var _ => exact .single _
  | int _ _ => exact .single _
  | text _ => exact .single _
  | label _ _ => exact .cons _ (.single _)

theorem Operand.From.isWord {us : List Token} {o : Operand Span} (h : o.From us) :
    ∀ t ∈ us, t.IsWord := by
  cases h <;> simp_all [Token.IsWord]

theorem Operand.From.ne_nil {us : List Token} {o : Operand Span} (h : o.From us) : us ≠ [] := by
  cases h <;> exact List.cons_ne_nil _ _

/-- A word of a data segment and the token that ends its line. -/
theorem Reaches.datum {d : Datum Span} {t : Token} {used ts : List Token} {ds : List (Datum Span)}
    {q : Pos} (h : Reaches Datum.From ts ds t.span.stop q) (hd : d.From used) (p : Pos) :
    Reaches Datum.From (used ++ t :: ts) (d :: ds) p q := by
  have hext : Extent (used ++ [t]) (d.operand.note.join t.span) := hd.extent.append (.single t)
  have hused : Scattered Datum.From (used ++ [t]) [d] := (Among.single hd).concat trivial
  have hline := Reaches.prepend (a := d.operand.note.join t.span) h hext hused p
  rwa [List.append_assoc] at hline

theorem Part.From.extent {us : List Token} {p : Part} (h : p.From us) : Extent us p.span := by
  cases h with
  | operand h => exact h.extent
  | @address opening base close offset _ _ _ _ _ =>
    exact (Extent.single opening).around (.single close) (base :: offset)

theorem Part.From.isWord {us : List Token} {p : Part} (h : p.From us) : ∀ t ∈ us, t.IsWord := by
  cases h with
  | operand h => exact h.isWord
  | address hopening hbase hoffset hclose =>
    have hbase' := Token.isWord_of_kind hbase (by decide)
    simp only [List.forall_mem_cons, List.forall_mem_append]
    exact ⟨hopening, hbase', hoffset, hclose, List.forall_mem_nil _⟩

end Vapor
