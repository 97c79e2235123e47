/-
Vapor/Proofs/Grammar/Origins.lean

A program that has been read comes from its tokens (`parse_from`).

A reader is gone through as in the proof that what it reads has the form the grammar demands,
but here only its successes matter (`Leaves`).  Where the span of a node is joined from its first
and its last token, these are at hand.  The readers of the lines of a segment and of a function
carry along the span of the last one that counts; `Reaches` says how far it has come.
-/
import Vapor.Proofs.Grammar.Faults
import Vapor.Proofs.Grammar.Nodes

namespace Vapor

namespace Parser

open Grammar

variable {β γ : Type} {stop : Token} {ts : List Token}

/-! ### Readers that succeed -/

/-- If the reader succeeds on these tokens then it leaves some of them, and these and what it
returns have the property. -/
def Leaves (stop : Token) (x : Parser β) (ts : List Token) (Q : List Token → β → Prop) : Prop :=
  ∀ behind b s, x.run (.on stop behind ts) = .ok (b, s) →
    ∃ behind' us, s = .on stop behind' us ∧ Q us b

section Leaves

variable {Q Q' : List Token → β → Prop} {R : List Token → γ → Prop} {x : Parser β}

/-- What a reader can do holds if it succeeds. -/
theorem Meets.leaves (h : Meets stop x ts Q) : Leaves stop x ts Q := by
  intro behind b s hrun
  rcases h behind with ⟨behind', us, c, hrun', hQ⟩ | ⟨what, span, hrun'⟩
  · obtain ⟨rfl, rfl⟩ := Prod.mk.inj (Except.ok.inj (hrun.symm.trans hrun'))
    exact ⟨behind', us, rfl, hQ⟩
  · exact nomatch hrun.symm.trans hrun'

theorem leaves_pure {b : β} (h : Q ts b) : Leaves stop (pure b) ts Q :=
  (meets_pure h).leaves

theorem leaves_throw (e : ParseError) : Leaves stop (throw e : Parser β) ts Q :=
  fun _ _ _ hrun => nomatch hrun

theorem Leaves.bind {f : β → Parser γ} (hx : Leaves stop x ts Q)
    (hf : ∀ us b, Q us b → Leaves stop (f b) us R) : Leaves stop (x >>= f) ts R := by
  intro behind c s hrun
  rw [StateT.run_bind] at hrun
  rcases hfirst : x.run (.on stop behind ts) with e | ⟨b, s'⟩
  · rw [hfirst] at hrun
    exact nomatch hrun
  · rw [hfirst] at hrun
    obtain ⟨behind', us, rfl, hQ⟩ := hx behind b s' hfirst
    exact hf us b hQ behind' c s hrun

theorem Leaves.mono (hx : Leaves stop x ts Q) (h : ∀ us b, Q us b → Q' us b) :
    Leaves stop x ts Q' := by
  intro behind b s hrun
  obtain ⟨behind', us, hs, hQ⟩ := hx behind b s hrun
  exact ⟨behind', us, hs, h us b hQ⟩

theorem Leaves.and (hx : Leaves stop x ts Q) (hx' : Leaves stop x ts Q') :
    Leaves stop x ts fun us b => Q us b ∧ Q' us b := by
  intro behind b s hrun
  obtain ⟨behind', us, rfl, hQ⟩ := hx behind b s hrun
  obtain ⟨_, us', hs, hQ'⟩ := hx' behind b _ hrun
  exact ⟨behind', us, rfl, hQ, Cursor.on_inj hs ▸ hQ'⟩

theorem leaves_get {f : Cursor → Parser γ}
    (h : ∀ behind, Leaves stop (f (.on stop behind ts)) ts R) : Leaves stop (get >>= f) ts R :=
  fun behind => h behind behind

theorem leaves_integer {t : Token} :
    Leaves stop (integer t) ts fun us n => us = ts ∧ Text.readInteger t.lexeme = .ok n := by
  unfold integer
  split
  · rename_i n hn
    exact leaves_pure ⟨rfl, hn⟩
  · exact leaves_throw _

end Leaves

/-! ### Reading operands -/

section Readers

variable (hstop : stop.kind = .eof)

include hstop

theorem leaves_label :
    Leaves stop label ts fun us l => ∃ used, ts = used ++ us ∧ Operand.From used (.label l) := by
  refine (meets_expect hstop (by decide) _).leaves.bind ?_
  rintro us colon ⟨rfl, hcolon⟩
  refine (meets_expect hstop (by decide) _).leaves.bind ?_
  rintro vs name ⟨rfl, hname⟩
  exact leaves_pure ⟨[colon, name], rfl, .label hcolon hname⟩

theorem leaves_operand :
    Leaves stop operand ts fun us o => ∃ used, ts = used ++ us ∧ o.From used := by
  refine meets_current.leaves.bind ?_
  rintro _ _ ⟨rfl, rfl⟩
  split
  · rename_i hhead
    refine (meets_head hstop (by decide) hhead).leaves.bind ?_
    rintro us t ⟨rfl, ht⟩
    exact leaves_pure ⟨[t], rfl, .var ht⟩
  · rename_i hhead
    refine (meets_head hstop (by decide) hhead).leaves.bind ?_
    rintro us t ⟨rfl, ht⟩
    refine leaves_integer.bind ?_
    rintro _ n ⟨rfl, hn⟩
    exact leaves_pure ⟨[t], rfl, .int ht hn⟩
  · rename_i hhead
    refine (meets_head hstop (by decide) hhead).leaves.bind ?_
    rintro us t ⟨rfl, ht⟩
    exact leaves_pure ⟨[t], rfl, .text ht⟩
  · refine (leaves_label hstop).bind ?_
    rintro us l ⟨used, rfl, hl⟩
    exact leaves_pure ⟨used, rfl, hl⟩
  · exact (meets_failHere _).leaves

/-- Operands up to a closing parenthesis, whose span is returned. -/
theorem leaves_operands {rounds : Nat} :
    Leaves stop (operands rounds) ts fun us r =>
      ∃ used close, ts = used ++ close :: us ∧ close.kind = .rparen ∧ close.span = r.2 ∧
        Among Token.IsWord Part.From used (r.1.map .operand) := by
  induction rounds generalizing ts with
  | zero => exact leaves_throw _
  | succ rounds ih =>
    refine meets_current.leaves.bind ?_
    rintro _ _ ⟨rfl, rfl⟩
    split
    · rename_i hhead
      refine (meets_head hstop (by decide) hhead).leaves.bind ?_
      rintro us t ⟨rfl, ht⟩
      exact leaves_pure ⟨[], t, rfl, ht, rfl, .nil⟩
    · exact (meets_failHere _).leaves
    · exact (meets_failHere _).leaves
    · refine (leaves_operand hstop).bind ?_
      rintro us o ⟨used, rfl, ho⟩
      refine ih.bind ?_
      rintro vs r ⟨used', close, rfl, hclose, hspan, hr⟩
      refine leaves_pure ⟨used ++ used', close, ?_, hclose, hspan, .node (.operand ho) hr⟩
      rw [List.append_assoc]

theorem leaves_args :
    Leaves stop args ts fun us r =>
      ∃ used close, ts = used ++ close :: us ∧ close.kind = .rparen ∧ close.span = r.2 ∧
        Among Token.IsWord Part.From used (r.1.map .operand) := by
  refine (meets_expect hstop (by decide) _).leaves.bind ?_
  rintro us opening ⟨rfl, hopening⟩
  refine meets_bound.leaves.bind ?_
  rintro _ _ ⟨rfl, rfl⟩
  refine (leaves_operands hstop).mono ?_
  rintro vs r ⟨used, close, rfl, hclose, hspan, hr⟩
  exact ⟨opening :: used, close, rfl, hclose, hspan,
    .skip (Token.isWord_of_kind hopening (by decide)) hr⟩

theorem leaves_offset :
    Leaves stop offset ts fun us _ => ∃ used, ts = used ++ us ∧ ∀ t ∈ used, t.IsWord := by
  refine meets_current.leaves.bind ?_
  rintro _ _ ⟨rfl, rfl⟩
  split
  · rename_i hhead
    refine (meets_head hstop (by decide) hhead).leaves.bind ?_
    rintro us t ⟨rfl, ht⟩
    refine (meets_expect hstop (by decide) _).leaves.bind ?_
    rintro vs number ⟨rfl, hnumber⟩
    refine leaves_integer.mono ?_
    rintro _ n ⟨rfl, -⟩
    exact ⟨[t, number], rfl, by simp [Token.IsWord, ht, hnumber]⟩
  · split
    · rename_i hhead
      refine (meets_head hstop (by decide) hhead.1).leaves.bind ?_
      rintro us t ⟨rfl, ht⟩
      refine leaves_integer.mono ?_
      rintro _ n ⟨rfl, -⟩
      exact ⟨[t], rfl, by simp [Token.IsWord, ht]⟩
    · exact leaves_pure ⟨[], rfl, List.forall_mem_nil _⟩

theorem leaves_address (hopening : (ts.headD stop).kind = .lbracket) :
    Leaves stop address ts fun us a => ∃ used, ts = used ++ us ∧ Part.From used (.address a) := by
  refine (meets_head hstop (by decide) hopening).leaves.bind ?_
  rintro us t ⟨rfl, ht⟩
  refine (meets_expect hstop (by decide) _).leaves.bind ?_
  rintro vs base ⟨rfl, hbase⟩
  refine (leaves_offset hstop).bind ?_
  rintro ws n ⟨used, rfl, hused⟩
  refine (meets_expect hstop (by decide) _).leaves.bind ?_
  rintro xs close ⟨rfl, hclose⟩
  refine leaves_pure ⟨t :: base :: (used ++ [close]), by simp, .address ?_ hbase hused ?_⟩
  · exact Token.isWord_of_kind ht (by decide)
  · exact Token.isWord_of_kind hclose (by decide)

/-! ### Reading instructions -/

omit hstop in
/-- The span of an instruction that ends with a parenthesis. -/
theorem extent_closed {first t close : Token} {ds us : List Token}
    (hfirst : (ds ++ t :: us).head? = some first) (vs : List Token) :
    Extent (ds ++ t :: (vs ++ [close])) (first.span.join close.span) := by
  refine ⟨⟨first, ?_, rfl⟩, ⟨close, ?_, rfl⟩⟩
  · cases ds <;> exact hfirst
  · rw [← List.cons_append, ← List.append_assoc, List.getLast?_concat]

theorem head?_of_kind {kind : Token.Kind} (hkind : kind ≠ .eof)
    (h : (ts.headD stop).kind = kind) : ts.head? = some (ts.headD stop) := by
  cases ts with
  | nil => exact absurd (h.symm.trans hstop) hkind
  | cons t us => rfl

variable {dest : Option (Ref Span)} {ds : List Token} {first : Token}

theorem leaves_call (hds : Among Token.IsWord Part.From ds (Part.ofDest dest))
    (hfirst : (ds ++ ts).head? = some first) (hkeyword : (ts.headD stop).kind = .call) :
    Leaves stop (call dest first.span) ts fun us i =>
      ∃ used, ts = used ++ us ∧ i.From (ds ++ used) := by
  refine (meets_head hstop (by decide) hkeyword).leaves.bind ?_
  rintro us t ⟨rfl, ht⟩
  -- behind the callee, of either kind
  have hargs (vs used : List Token) (c : Callee Span) (hus : us = used ++ vs)
      (hc : c.operand.From used) :
      Leaves stop (do let r ← args; return Instr.call dest c r.1 (first.span.join r.2)) vs
      fun ws i => ∃ used, t :: us = used ++ ws ∧ i.From (ds ++ used) := by
    refine (leaves_args hstop).bind ?_
    rintro ws r ⟨used', close, rfl, hclose, hspan, hr⟩
    refine leaves_pure ⟨t :: ((used ++ used') ++ [close]), by simp [hus], ?_, ?_⟩
    · rw [← hspan]
      exact extent_closed hfirst _
    · have hclose' := Token.isWord_of_kind hclose (by decide)
      rw [List.append_assoc]
      exact hds.append (.skip (Token.isWord_of_kind ht (by decide))
        (.node (.operand hc) (hr.concat hclose')))
  refine meets_current.leaves.bind ?_
  rintro _ _ ⟨rfl, rfl⟩
  split
  · refine (leaves_label hstop).bind ?_
    rintro vs l ⟨used, rfl, hl⟩
    rw [pure_bind]
    exact hargs vs used (.label l) rfl hl
  · refine (meets_expect hstop (by decide) _).leaves.bind ?_
    rintro vs name ⟨rfl, hname⟩
    rw [pure_bind]
    exact hargs vs [name] (.var _) rfl (.var hname)

theorem leaves_application (hds : Among Token.IsWord Part.From ds (Part.ofDest dest))
    (hfirst : (ds ++ ts).head? = some first) (hop : (ts.headD stop).kind = .ident) :
    Leaves stop (application dest first.span) ts fun us i =>
      ∃ used, ts = used ++ us ∧ i.From (ds ++ used) := by
  refine (meets_head hstop (by decide) hop).leaves.bind ?_
  rintro us t ⟨rfl, ht⟩
  refine (leaves_args hstop).bind ?_
  rintro vs r ⟨used, close, rfl, hclose, hspan, hr⟩
  refine leaves_pure ⟨t :: (used ++ [close]), by simp, ?_, ?_⟩
  · rw [← hspan]
    exact extent_closed hfirst _
  · have hclose' := Token.isWord_of_kind hclose (by decide)
    exact hds.append (.skip (Token.isWord_of_kind ht (by decide)) (hr.concat hclose'))

theorem leaves_assignment {x eq : Token} (hx : x.kind = .ident) (heq : eq.kind = .assign) :
    Leaves stop (assignment ⟨x.lexeme, x.span⟩) ts fun us i =>
      ∃ used, ts = used ++ us ∧ i.From (x :: eq :: used) := by
  have heq' := Token.isWord_of_kind heq (by decide)
  have hds : Among Token.IsWord Part.From [x, eq] (Part.ofDest (some ⟨x.lexeme, x.span⟩)) :=
    (Among.single (Part.From.operand (.var hx))).concat heq'
  refine leaves_get fun behind => ?_
  simp only [Cursor.current_on, Cursor.peek_on]
  split
  · refine (leaves_address hstop ‹_›).bind ?_
    rintro us a ⟨used, rfl, ha⟩
    exact leaves_pure ⟨used, rfl, (Extent.single x).around ha.extent [eq], hds.append (.single ha)⟩
  · exact leaves_call hstop hds rfl ‹_›
  · exact leaves_application hstop hds rfl ‹_›
  · refine (leaves_operand hstop).bind ?_
    rintro us o ⟨used, rfl, ho⟩
    exact leaves_pure ⟨used, rfl, (Extent.single x).around ho.extent [eq],
      hds.append (.single (.operand ho))⟩

theorem leaves_branch {positive : Bool}
    (hkeyword : (ts.headD stop).kind = if positive then .ifTrue else .ifZero) :
    Leaves stop (branch positive) ts fun us i => ∃ used, ts = used ++ us ∧ i.From used := by
  refine (meets_head hstop (by cases positive <;> decide) hkeyword).leaves.bind ?_
  rintro us t ⟨rfl, ht⟩
  refine (leaves_operand hstop).bind ?_
  rintro vs o ⟨used, rfl, ho⟩
  refine (meets_expect hstop (by decide) _).leaves.bind ?_
  rintro ws goto ⟨rfl, hgoto⟩
  refine (leaves_label hstop).bind ?_
  rintro xs l ⟨used', rfl, hl⟩
  refine leaves_pure ⟨t :: ((used ++ [goto]) ++ used'), by simp, ?_, ?_⟩
  · exact (Extent.single t).around hl.extent _
  · rw [List.append_assoc]
    exact .skip (Token.isWord_of_kind ht (by cases positive <;> decide))
      (.node (.operand ho) (.skip (Token.isWord_of_kind hgoto (by decide)) (.single (.operand hl))))

theorem leaves_instr :
    Leaves stop instr ts fun us i => ∃ used, ts = used ++ us ∧ i.From used := by
  have hnone : Among Token.IsWord Part.From [] (Part.ofDest none) := .nil
  refine leaves_get fun behind => ?_
  simp only [Cursor.current_on, Cursor.peek_on]
  -- in the order of the reader: assignments and applications, stores, calls, jumps, returns
  split
  · rename_i hhead hpeek
    refine (meets_head hstop (by decide) hhead).leaves.bind ?_
    rintro us t ⟨rfl, ht⟩
    refine (meets_head hstop (by decide) hpeek).leaves.bind ?_
    rintro vs eq ⟨rfl, heq⟩
    refine (leaves_assignment hstop ht heq).mono ?_
    rintro ws i ⟨used, rfl, hi⟩
    exact ⟨t :: eq :: used, rfl, hi⟩
  · rename_i hhead _
    exact leaves_application hstop hnone (head?_of_kind hstop (by decide) hhead) hhead
  · refine (leaves_address hstop ‹_›).bind ?_
    rintro us a ⟨used, rfl, ha⟩
    refine (meets_expect hstop (by decide) _).leaves.bind ?_
    rintro vs eq ⟨rfl, heq⟩
    refine (leaves_operand hstop).bind ?_
    rintro ws o ⟨used', rfl, ho⟩
    refine leaves_pure ⟨used ++ ([eq] ++ used'), by simp, ha.extent.around ho.extent _, ?_⟩
    exact .node ha (.skip (Token.isWord_of_kind heq (by decide)) (.single (.operand ho)))
  · rename_i hhead
    exact leaves_call hstop hnone (head?_of_kind hstop (by decide) hhead) hhead
  · exact leaves_branch hstop ‹_›
  · exact leaves_branch hstop ‹_›
  · rename_i hhead
    refine (meets_head hstop (by decide) hhead).leaves.bind ?_
    rintro us t ⟨rfl, ht⟩
    refine (leaves_label hstop).bind ?_
    rintro vs l ⟨used, rfl, hl⟩
    refine leaves_pure ⟨t :: used, rfl, .cons t hl.extent, ?_⟩
    exact .skip (Token.isWord_of_kind ht (by decide)) (.single (.operand hl))
  · rename_i hhead
    refine (meets_head hstop (by decide) hhead).leaves.bind ?_
    rintro us t ⟨rfl, ht⟩
    have ht' := Token.isWord_of_kind ht (by decide)
    refine leaves_get fun behind => ?_
    split
    · exact leaves_pure ⟨[t], rfl, .single t, .skip ht' .nil⟩
    · refine (leaves_operand hstop).bind ?_
      rintro vs o ⟨used, rfl, ho⟩
      exact leaves_pure ⟨t :: used, rfl, .cons t ho.extent, .skip ht' (.single (.operand ho))⟩
  · exact (meets_failHere _).leaves

/-! ### Reading segments -/

theorem leaves_endOfLine (hts : ∀ t ∈ ts, t.Proper) (what : ParseFault) :
    Leaves stop (endOfLine what) ts fun us t =>
      ts = t :: us ∨ ts = [] ∧ us = [] ∧ t = stop := by
  refine leaves_get fun behind => ?_
  rw [Cursor.atEnd_on hstop hts]
  cases ts with
  | nil =>
    refine meets_current.leaves.mono ?_
    rintro _ _ ⟨rfl, rfl⟩
    exact .inr ⟨rfl, rfl, rfl⟩
  | cons t us =>
    refine (meets_expect hstop (by decide) what).leaves.mono ?_
    rintro us' t' ⟨heq, -⟩
    exact .inl heq

theorem leaves_datum :
    Leaves stop datum ts fun us d => ∃ used, ts = used ++ us ∧ d.From used := by
  refine meets_current.leaves.bind ?_
  rintro _ _ ⟨rfl, rfl⟩
  split
  · refine (leaves_label hstop).bind ?_
    rintro us l ⟨used, rfl, hl⟩
    exact leaves_pure ⟨used, rfl, hl⟩
  · rename_i hhead
    refine (meets_head hstop (by decide) hhead).leaves.bind ?_
    rintro us t ⟨rfl, ht⟩
    refine leaves_integer.bind ?_
    rintro _ n ⟨rfl, hn⟩
    exact leaves_pure ⟨[t], rfl, .int ht hn⟩
  · exact (meets_failHere _).leaves

/-- The words of a segment reach up to the last end of a line, which may be the end of the
text. -/
theorem leaves_data {rounds : Nat} (last : Span) (hts : ∀ t ∈ ts, t.Proper) :
    Leaves stop (data last rounds) ts fun us r =>
      (∃ mid ends, ts = mid ++ us ∧ (ends = [] ∨ ends = [stop] ∧ us = []) ∧
        Reaches Datum.From (mid ++ ends) r.1 last.stop r.2.stop) ∧
      ((ts.headD stop).kind ∈ [.ident, .colon, .integer] → r.1 ≠ []) ∧
      (ts = [] → r = ([], last)) := by
  induction rounds generalizing ts last with
  | zero => exact leaves_throw _
  | succ rounds ih =>
    refine leaves_get fun behind => ?_
    rw [Cursor.current_on]
    split
    · rename_i hitem
      refine leaves_pure ⟨⟨[], [], rfl, .inl rfl, .nil⟩, fun hhead => ?_, fun _ => rfl⟩
      simp only [List.mem_cons, List.not_mem_nil, or_false] at hhead
      rcases hhead with hhead | hhead | hhead <;>
        exact absurd hitem (Cursor.not_atItem_on hhead (by decide))
    · split
      · rename_i hhead
        refine (meets_head hstop (by decide) hhead).leaves.bind ?_
        rintro us t ⟨rfl, ht⟩
        refine (ih last (List.forall_mem_cons.mp hts).2).mono ?_
        rintro vs r ⟨⟨mid, ends, rfl, hends, hr⟩, -, -⟩
        exact ⟨⟨t :: mid, ends, rfl, hends, hr.skip [t]⟩, by simp [ht], nofun⟩
      · refine (leaves_datum hstop).bind ?_
        rintro us d ⟨used, rfl, hd⟩
        have hne : used ++ us ≠ [] := by simp [hd.ne_nil]
        have hus := (List.forall_mem_append.mp hts).2
        refine leaves_get fun behind => ?_
        dsimp only
        split
        · -- another word follows on the line, so that its end is still to come
          rename_i hany
          rw [pure_bind]
          refine (ih last hus).bind ?_
          rintro vs r ⟨⟨mid, ends, rfl, hends, hr⟩, hmore, -⟩
          refine leaves_pure ⟨⟨used ++ mid, ends, by simp, hends, ?_⟩, by simp, (absurd · hne)⟩
          rw [List.append_assoc]
          refine hr.cons (hmore ?_) hd fun d hd => hd.ne_nil rfl
          rw [Cursor.isAny, Cursor.current_on] at hany
          exact List.contains_iff_mem.mp hany
        · refine (leaves_endOfLine hstop hus _).bind ?_
          rintro vs t (rfl | ⟨rfl, rfl, rfl⟩)
          · -- the line ends with a token
            rw [pure_bind]
            refine (ih t.span (List.forall_mem_cons.mp hus).2).bind ?_
            rintro ws r ⟨⟨mid, ends, rfl, hends, hr⟩, -, -⟩
            refine leaves_pure ⟨⟨used ++ t :: mid, ends, by simp, hends, ?_⟩, by simp,
              (absurd · hne)⟩
            rw [List.append_assoc]
            exact hr.datum hd last.stop
          · -- the line ends with the text: the token at its end is not read, but counts
            rw [pure_bind]
            refine (ih _ hus).bind ?_
            rintro ws r ⟨⟨mid, ends, hmid, -, -⟩, -, hr⟩
            obtain ⟨rfl, rfl⟩ := List.append_eq_nil_iff.mp hmid.symm
            rw [hr rfl]
            refine leaves_pure ⟨⟨used, [t], by simp, .inr ⟨rfl, rfl⟩, ?_⟩, by simp,
              (absurd · hne)⟩
            exact Reaches.nil.datum hd last.stop

theorem leaves_segment {keyword : Token} (hts : ∀ t ∈ ts, t.Proper) :
    Leaves stop (segment keyword) ts fun us s => ∃ used behind, s.From used ∧
      (keyword :: ts = used ++ (behind ++ us) ∨
        us = [] ∧ keyword :: (ts ++ [stop]) = used ++ behind) := by
  refine (meets_expect hstop (by decide) _).leaves.bind ?_
  rintro us name ⟨rfl, hname⟩
  have hus := (List.forall_mem_cons.mp hts).2
  refine (leaves_endOfLine hstop hus _).bind ?_
  intro vs t hline
  have hvs : ∀ t ∈ vs, t.Proper := by
    rcases hline with rfl | ⟨-, rfl, -⟩
    · exact (List.forall_mem_cons.mp hus).2
    · exact List.forall_mem_nil _
  have hheader : Extent [keyword, name, t] (keyword.span.join t.span) :=
    (Extent.single keyword).around (.single t) [name]
  refine meets_bound.leaves.bind ?_
  rintro _ _ ⟨rfl, rfl⟩
  refine (leaves_data hstop t.span hvs).bind ?_
  rintro ws r ⟨⟨mid, ends, rfl, hends, hr⟩, -, hnone⟩
  rcases hline with rfl | ⟨rfl, hvs, rfl⟩
  · obtain ⟨used, behind, hmid, hused, hext⟩ :=
      Reaches.extend (a := keyword.span.join t.span) hr hheader
    refine leaves_pure ⟨[keyword, name, t] ++ used, behind, ⟨hext, ?_⟩, ?_⟩
    · exact hused.widen (List.suffix_append _ _).isInfix
    · rcases hends with rfl | ⟨rfl, rfl⟩
      · rw [List.append_nil] at hmid
        exact .inl (by simp [hmid])
      · rw [List.append_nil]
        refine .inr ⟨rfl, ?_⟩
        show keyword :: name :: t :: (mid ++ [stop]) = _
        rw [hmid]
        rfl
  · rw [hnone hvs]
    obtain ⟨rfl, rfl⟩ := List.append_eq_nil_iff.mp hvs
    exact leaves_pure ⟨[keyword, name, t], [], ⟨hheader, .none fun _ _ => trivial⟩, .inr ⟨rfl, rfl⟩⟩

/-! ### Reading functions -/

/-- Names up to a closing parenthesis, whose span is returned. -/
theorem leaves_params {rounds : Nat} (seen : List String) :
    Leaves stop (params seen rounds) ts fun us r =>
      ∃ used close, ts = used ++ close :: us ∧ close.span = r.2 ∧ Scattered Ref.From used r.1 := by
  induction rounds generalizing ts seen with
  | zero => exact leaves_throw _
  | succ rounds ih =>
    refine meets_current.leaves.bind ?_
    rintro _ _ ⟨rfl, rfl⟩
    split
    · rename_i hhead
      refine (meets_head hstop (by decide) hhead).leaves.bind ?_
      rintro us t ⟨rfl, ht⟩
      exact leaves_pure ⟨[], t, rfl, rfl, .nil⟩
    · refine (meets_expect hstop (by decide) _).leaves.bind ?_
      rintro us name ⟨rfl, hname⟩
      split
      · exact Leaves.bind (Q := fun _ _ => False) (leaves_throw _) fun _ _ h => h.elim
      · refine (ih _).bind ?_
        rintro vs r ⟨used, close, rfl, hspan, hr⟩
        exact leaves_pure ⟨[name] ++ used, close, rfl, hspan, .node (.var hname) hr⟩

/-- The lines of a function reach up to the last label or instruction. -/
theorem leaves_block {rounds : Nat} (index : Nat) (seen : List String) (last : Span)
    (hts : ∀ t ∈ ts, t.Proper) :
    Leaves stop (block index seen last rounds) ts fun us b =>
      ∃ mid lines, ts = mid ++ us ∧ b.body = lines.filterMap Sum.getLeft? ∧
        b.labels = lines.filterMap Sum.getRight? ∧
        Reaches LineFrom mid lines last.stop b.last.stop := by
  induction rounds generalizing ts index seen last with
  | zero => exact leaves_throw _
  | succ rounds ih =>
    refine leaves_get fun behind => ?_
    rw [Cursor.current_on, Cursor.peek_on]
    -- the end of the function, an empty line, a label, or else an instruction
    split
    · exact leaves_pure ⟨[], [], rfl, rfl, rfl, .nil⟩
    split
    · rename_i hhead
      refine (meets_head hstop (by decide) hhead).leaves.bind ?_
      rintro us t ⟨rfl, ht⟩
      refine (ih index seen last (List.forall_mem_cons.mp hts).2).mono ?_
      rintro vs b ⟨mid, lines, rfl, hbody, hlabels, hb⟩
      exact ⟨t :: mid, lines, rfl, hbody, hlabels, hb.skip [t]⟩
    split
    · rename_i hhead
      refine (meets_head hstop (by decide) hhead.1).leaves.bind ?_
      rintro us t ⟨rfl, ht⟩
      refine (meets_head hstop (by decide) hhead.2).leaves.bind ?_
      rintro vs colon ⟨rfl, -⟩
      split
      · exact Leaves.bind (Q := fun _ _ => False) (leaves_throw _) fun _ _ h => h.elim
      · have hvs : ∀ u ∈ vs, u.Proper := fun u hu => hts u (by simp [hu])
        refine (meets_endOfLine hstop hvs _).leaves.bind ?_
        rintro ws _ ⟨-, eol, rfl⟩
        refine (ih index _ t.span (List.forall_mem_append.mp hvs).2).bind ?_
        rintro xs b ⟨mid, lines, rfl, hbody, hlabels, hb⟩
        have hlabel : LineFrom [t] (.inr ⟨t.lexeme, index, t.span⟩) := Operand.From.var ht
        refine leaves_pure ⟨[t] ++ ((colon :: eol) ++ mid),
          [.inr ⟨t.lexeme, index, t.span⟩] ++ lines, by simp, hbody, ?_, ?_⟩
        · simp [hlabels]
        · exact (hb.skip (colon :: eol)).prepend (.single t) (.single hlabel) last.stop
    · refine ((leaves_instr hstop).and (meets_instr hstop hts).leaves).bind ?_
      rintro us i ⟨⟨used, rfl, hi⟩, hform, -⟩
      have hus := (List.forall_mem_append.mp hts).2
      refine (meets_endOfLine hstop hus _).leaves.bind ?_
      rintro vs _ ⟨-, eol, rfl⟩
      refine (ih (index + 1) seen i.note (List.forall_mem_append.mp hus).2).bind ?_
      rintro ws b ⟨mid, lines, rfl, hbody, hlabels, hb⟩
      have hline : LineFrom used (.inl i) := ⟨hi, _, hform⟩
      refine leaves_pure ⟨used ++ (eol ++ mid), [.inl i] ++ lines, by simp, ?_, hlabels, ?_⟩
      · simp [hbody]
      · exact (hb.skip eol).prepend hi.extent (.single hline) last.stop

theorem leaves_function {keyword : Token} (hts : ∀ t ∈ ts, t.Proper) :
    Leaves stop (function keyword) ts fun us f =>
      ∃ used behind, f.From used ∧ keyword :: ts = used ++ (behind ++ us) := by
  refine (meets_expect hstop (by decide) _).leaves.bind ?_
  rintro us name ⟨rfl, -⟩
  refine (meets_expect hstop (by decide) _).leaves.bind ?_
  rintro vs opening ⟨rfl, -⟩
  refine meets_bound.leaves.bind ?_
  rintro _ _ ⟨rfl, rfl⟩
  refine (leaves_params hstop []).bind ?_
  rintro ws r ⟨params, close, rfl, hspan, hparams⟩
  have hws : ∀ u ∈ ws, u.Proper := fun u hu => hts u (by simp [hu])
  refine (meets_endOfLine hstop hws _).leaves.bind ?_
  rintro xs _ ⟨-, eol, rfl⟩
  refine meets_bound.leaves.bind ?_
  rintro _ _ ⟨rfl, rfl⟩
  refine (leaves_block hstop 0 [] r.2 (List.forall_mem_append.mp hws).2).bind ?_
  rintro ys b ⟨mid, lines, rfl, hbody, hlabels, hb⟩
  rw [← hspan] at hb
  have hheader : Extent (keyword :: ((name :: opening :: params) ++ [close]))
      (keyword.span.join close.span) :=
    (Extent.single keyword).around (.single close) (name :: opening :: params)
  obtain ⟨used, behind, hmid, hused, hext⟩ :=
    Reaches.extend (a := keyword.span.join close.span) (hb.skip eol) hheader
  have hlines := hused.widen
    (List.suffix_append (keyword :: ((name :: opening :: params) ++ [close])) used).isInfix
  refine leaves_pure ⟨_, behind, ⟨hext, ?_, ?_, ?_⟩, ?_⟩
  · exact hparams.widen ⟨[keyword, name, opening], close :: used, by simp⟩
  · rw [hbody]
    exact hlines.left fun _ _ hi => hi
  · rw [hlabels]
    exact hlines.right fun _ _ hl => hl
  · have htail : eol ++ (mid ++ ys) = used ++ (behind ++ ys) := by
      rw [← List.append_assoc, hmid, List.append_assoc]
    simp [htail]

/-! ### Reading programs -/

/-- The segments and functions come from the tokens, in their order.  The end of the text is the
last of the tokens; nothing comes from it alone. -/
def ItemsFrom (stop : Token) (ts : List Token)
    (r : List (Segment Span) × List (Function Span)) : Prop :=
  ∃ items, r.1 = items.filterMap Sum.getLeft? ∧ r.2 = items.filterMap Sum.getRight? ∧
    Scattered ItemFrom (ts ++ [stop]) items ∧ (ts = [] → items = [])

theorem leaves_items {rounds : Nat} (hts : ∀ t ∈ ts, t.Proper) :
    Leaves stop (items rounds) ts fun us r => us = [] ∧ ItemsFrom stop ts r := by
  induction rounds generalizing ts with
  | zero => exact leaves_throw _
  | succ rounds ih =>
    have hsegment {kind : Token.Kind} (hkind : kind ≠ .eof) (hhead : (ts.headD stop).kind = kind) :
        Leaves stop (do
          let _ ← next
          let segment ← segment (ts.headD stop)
          let r ← items rounds
          return (segment :: r.1, r.2)) ts fun us r => us = [] ∧ ItemsFrom stop ts r := by
      refine (meets_head hstop hkind hhead).leaves.bind ?_
      rintro us t ⟨rfl, -⟩
      refine (leaves_segment hstop (List.forall_mem_cons.mp hts).2).bind ?_
      rintro vs s ⟨used, behind, hs, hall⟩
      have hvs : ∀ u ∈ vs, u.Proper := by
        rcases hall with hall | ⟨rfl, -⟩
        · exact fun u hu => hts u (hall ▸ by simp [hu])
        · exact List.forall_mem_nil _
      refine (ih hvs).bind ?_
      rintro ws r ⟨rfl, items, hsegments, hfunctions, hitems, hnone⟩
      have hitem : ItemFrom used (.inl s) := hs
      refine leaves_pure ⟨rfl, .inl s :: items, by simp [hsegments], hfunctions, ?_, nofun⟩
      rcases hall with hall | ⟨rfl, hall⟩
      · rw [show t :: us = used ++ (behind ++ vs) from hall, List.append_assoc, List.append_assoc]
        exact .node hitem (hitems.widen (List.suffix_append behind _).isInfix)
      · -- the segment ends with the text, so that no item follows
        rw [hnone rfl, show t :: us ++ [stop] = used ++ behind from hall]
        exact Scattered.widen (.single hitem) (List.prefix_append used behind).isInfix
    refine meets_current.leaves.bind ?_
    rintro ts _ ⟨rfl, rfl⟩
    split
    · rename_i hhead
      cases ts with
      | nil => exact leaves_pure ⟨rfl, [], rfl, rfl, .skip trivial .nil, fun _ => rfl⟩
      | cons t us => exact absurd hhead (hts t List.mem_cons_self).inner
    · rename_i hhead
      refine (meets_head hstop (by decide) hhead).leaves.bind ?_
      rintro us t ⟨rfl, ht⟩
      refine (ih (List.forall_mem_cons.mp hts).2).mono ?_
      rintro vs r ⟨rfl, items, hsegments, hfunctions, hitems, -⟩
      exact ⟨rfl, items, hsegments, hfunctions, .skip trivial hitems, nofun⟩
    · rename_i hhead
      exact hsegment (by decide) hhead
    · rename_i hhead
      exact hsegment (by decide) hhead
    · rename_i hhead
      refine (meets_head hstop (by decide) hhead).leaves.bind ?_
      rintro us t ⟨rfl, -⟩
      refine (leaves_function hstop (List.forall_mem_cons.mp hts).2).bind ?_
      rintro vs f ⟨used, behind, hf, hall⟩
      refine (ih (fun u hu => hts u (hall ▸ by simp [hu]))).bind ?_
      rintro ws r ⟨rfl, items, hsegments, hfunctions, hitems, -⟩
      have hitem : ItemFrom used (.inr f) := hf
      refine leaves_pure ⟨rfl, .inr f :: items, hsegments, by simp [hfunctions], ?_, nofun⟩
      rw [show t :: us = used ++ (behind ++ vs) from hall, List.append_assoc, List.append_assoc]
      exact .node hitem (hitems.widen (List.suffix_append behind _).isInfix)
    · exact (meets_failHere _).leaves

theorem leaves_program (hts : ∀ t ∈ ts, t.Proper) :
    Leaves stop program ts fun _ p => p.From (ts ++ [stop]) := by
  refine meets_current.leaves.bind ?_
  rintro _ _ ⟨rfl, rfl⟩
  refine meets_bound.leaves.bind ?_
  rintro ts _ ⟨rfl, rfl⟩
  refine (leaves_items hstop hts).bind ?_
  rintro vs ⟨segments, functions⟩ ⟨rfl, items, hsegments, hfunctions, hitems, -⟩
  dsimp only
  split
  · exact leaves_throw _
  · refine meets_current.leaves.bind ?_
    rintro _ last ⟨rfl, hlast⟩
    obtain rfl : stop = last := hlast.symm
    refine leaves_pure ⟨⟨⟨_, ?_, rfl⟩, ⟨stop, List.getLast?_concat, rfl⟩⟩, items, hsegments,
      hfunctions, hitems⟩
    cases ts <;> rfl

end Readers

end Parser

/-- **A program comes from its tokens.** -/
theorem parse_from {ts : List Token} {stop : Token} {p : Program Span} (hstop : stop.kind = .eof)
    (hinner : ∀ t ∈ ts, t.kind ≠ .eof) (h : parse (ts ++ [stop]) = .ok p) :
    p.From (ts ++ [stop]) := by
  have hread := readable_of_parse hstop hinner h
  have hleaves := Parser.leaves_program hstop (fun t ht => ⟨hinner t ht, hread t ht⟩) []
  rw [parse_append] at h
  rcases hrun : Parser.program.run (.on stop [] ts) with e | ⟨q, s⟩
  · rw [hrun] at h
    exact nomatch h
  · rw [hrun] at h
    obtain rfl : q = p := Except.ok.inj h
    obtain ⟨-, -, -, hfrom⟩ := hleaves q s hrun
    exact hfrom

end Vapor
