/-
Vapor/Proofs/Printing/Reading.lean

What is written is read back: for every kind of text, the tokens that the reader of characters
makes of it are a form of the grammar for what the text was written for.

`Writes tight s P` joins the two readers.  It says of a part of a line that it spells some
words, whatever stands behind it, and that tokens with these words are related by `P` to the
tokens behind them.  A part may be *tight*: it ends with a name or a number, so that nothing
may follow that could go on with it.  Parts are put together by `Writes.append`, which is the
only place where this matters.
-/
import Vapor.Proofs.Grammar.Exact
import Vapor.Proofs.Printing.Basic
import Vapor.Proofs.Source.Layout
import Vapor.Proofs.Source.Numbers

namespace Vapor

open Grammar

/-! ### Parts of a line -/

/-- The words that a part of a line spells. -/
structure Writing (tight : Bool) (s : String) (P : List Token → List Token → Prop)
    (ws : List (Token.Kind × String)) : Prop where
  spells : ∀ cs ws', (tight = true → ∀ c ∈ cs.head?, isIdentPart c = false) → Spells cs ws' →
    Spells (s.toList ++ cs) (ws ++ ws')
  proper : ∀ t : Token, t.content ∈ ws → t.Proper
  reads : ∀ ts us, ts.map Token.content = ws → P (ts ++ us) us

/-- The text is a part of a line, and its tokens are related by `P` to those behind them. -/
def Writes (tight : Bool) (s : String) (P : List Token → List Token → Prop) : Prop :=
  ∃ ws, Writing tight s P ws

/-- One relation of tokens behind another. -/
def Then (P Q : List Token → List Token → Prop) (ts vs : List Token) : Prop :=
  ∃ us, P ts us ∧ Q us vs

/-- A single token. -/
def Sole (kind : Token.Kind) (lexeme : String) (ts us : List Token) : Prop :=
  ∃ t, ts = t :: us ∧ t.kind = kind ∧ t.lexeme = lexeme

/-- The text begins with a character that ends any name or number before it. -/
def closes (s : String) : Bool :=
  s.toList.head?.any fun c => !isIdentPart c

theorem closes_append {s s' : String} (h : closes s = true) : closes (s ++ s') = true := by
  unfold closes at h ⊢
  rw [String.toList_append]
  cases hs : s.toList with
  | nil => simp [hs] at h
  | cons c cs => simpa [hs] using h

namespace Writes

variable {tight tight' : Bool} {s s' : String} {P Q : List Token → List Token → Prop}

theorem mono (h : Writes tight s P) (hPQ : ∀ ts us, P ts us → Q ts us) : Writes tight s Q := by
  obtain ⟨ws, hspells, hproper, hreads⟩ := h
  exact ⟨ws, hspells, hproper, fun ts us hts => hPQ _ _ (hreads ts us hts)⟩

theorem empty : Writes false "" (fun ts us => ts = us) := by
  refine ⟨[], fun _ _ _ h => h, fun t ht => absurd ht List.not_mem_nil, fun ts us hts => ?_⟩
  rw [List.map_eq_nil_iff.mp hts, List.nil_append]

/-- Any part may be taken for a tight one. -/
theorem tighten (h : Writes tight s P) : Writes true s P := by
  obtain ⟨ws, hspells, hproper, hreads⟩ := h
  exact ⟨ws, fun cs ws' hcs => hspells cs ws' fun _ => hcs rfl, hproper, hreads⟩

/-- One part behind another.  Behind a tight one, a part has to begin with something else. -/
theorem append (h : Writes tight s P) (h' : Writes tight' s' Q)
    (hcloses : tight = true → closes s' = true) : Writes tight' (s ++ s') (Then P Q) := by
  obtain ⟨ws, hspells, hproper, hreads⟩ := h
  obtain ⟨ws', hspells', hproper', hreads'⟩ := h'
  refine ⟨ws ++ ws', fun cs ws'' hcs hspell => ?_, fun t ht => ?_, fun ts us hts => ?_⟩
  · rw [String.toList_append, List.append_assoc, List.append_assoc]
    refine hspells _ _ (fun htight => ?_) (hspells' _ _ hcs hspell)
    -- what stands behind the first part begins like the second one, which is not empty
    have hhead := hcloses htight
    unfold closes at hhead
    cases hs' : s'.toList with
    | nil => simp [hs'] at hhead
    | cons c cs' => simpa [hs'] using hhead
  · rcases List.mem_append.mp ht with ht | ht
    · exact hproper t ht
    · exact hproper' t ht
  · obtain ⟨first, second, rfl, hfirst, hsecond⟩ := List.map_eq_append_iff.mp hts
    rw [List.append_assoc]
    exact ⟨second ++ us, hreads first _ hfirst, hreads' second us hsecond⟩

/-- Blanks before a part. -/
theorem indent {blanks : String} (h : Writes tight s P)
    (hblanks : blanks.toList.all isBlank = true) : Writes tight (blanks ++ s) P := by
  obtain ⟨ws, hspells, hproper, hreads⟩ := h
  refine ⟨ws, fun cs ws' hcs hspell => ?_, hproper, hreads⟩
  rw [String.toList_append, List.append_assoc]
  exact (hspells cs ws' hcs hspell).blanks (List.all_eq_true.mp hblanks)

/-- A blank behind a part. -/
theorem space (h : Writes tight s P) : Writes false (s ++ " ") P := by
  obtain ⟨ws, hspells, hproper, hreads⟩ := h
  refine ⟨ws, fun cs ws' _ hspell => ?_, hproper, hreads⟩
  rw [String.toList_append, List.append_assoc]
  refine hspells _ _ (fun _ => ?_) (.blank (by decide) hspell)
  rintro _ ⟨⟩
  decide

end Writes

/-! ### Words -/

theorem sole_of_content {kind : Token.Kind} {lexeme : String} {ts : List Token} (us : List Token)
    (h : ts.map Token.content = [(kind, lexeme)]) : Sole kind lexeme (ts ++ us) us := by
  obtain ⟨t, rfl, ht⟩ := List.map_eq_singleton_iff.mp h
  obtain ⟨hkind, hlexeme⟩ := Prod.mk.inj ht
  exact ⟨t, rfl, hkind, hlexeme⟩

theorem proper_of_content {kind : Token.Kind} {lexeme : String} {t : Token} (hkind : kind ≠ .eof)
    (hread : kind = .integer → ∃ n, Text.readInteger lexeme = .ok n)
    (ht : t.content ∈ [(kind, lexeme)]) : t.Proper := by
  obtain ⟨rfl, rfl⟩ := Prod.mk.inj (List.mem_singleton.mp ht)
  exact ⟨hkind, hread⟩

/-- A word is tight. -/
theorem writes_word {kind : Token.Kind} {s : String} (h : Word kind s.toList [])
    (hread : kind = .integer → ∃ n, Text.readInteger s = .ok n) : Writes true s (Sole kind s) := by
  refine ⟨[(kind, s)], fun cs ws' hcs hspell => ?_, fun t => proper_of_content h.kind_ne.2 hread,
    fun ts us hts => sole_of_content us hts⟩
  have hword := Spells.word (h.before (hcs rfl)) hspell
  rwa [String.ofList_toList] at hword

/-- A mark may stand before anything. -/
theorem writes_mark {kind : Token.Kind} {s : String} {c : Char} (hs : s.toList = [c])
    (hc : Token.Kind.ofChar? c = some kind) : Writes false s (Sole kind s) := by
  have hword (rest : List Char) : Word kind s.toList rest := hs ▸ .mark hc
  have hkind : kind ≠ .integer := by
    rintro rfl
    unfold Token.Kind.ofChar? at hc
    split at hc <;> cases hc
  refine ⟨[(kind, s)], fun cs ws' _ hspell => ?_,
    fun t => proper_of_content (hword []).kind_ne.2 (absurd · hkind),
    fun ts us hts => sole_of_content us hts⟩
  have hline := Spells.word (hword cs) hspell
  rwa [String.ofList_toList] at hline

theorem writes_name {s : String} (h : IsName s) : Writes true s (Sole .ident s) :=
  writes_word h nofun

/-- A keyword is written with the blank that has to follow it. -/
theorem writes_keyword (kind : Token.Kind) (s : String) (h : Word kind s.toList [])
    (hkind : kind ≠ .integer) : Writes false (s ++ " ") (Sole kind s) :=
  (writes_word h (absurd · hkind)).space

theorem writes_assign : Writes false " = " (Sole .assign "=") := by
  have hmark : Writes false "=" (Sole .assign "=") := writes_mark rfl rfl
  have hindented : Writes false (" " ++ "=") (Sole .assign "=") := hmark.indent rfl
  exact hindented.space

/-! ### Operands -/

variable {α : Type}

/-- The notes do not matter. -/
abbrev eraseNote : α → Unit := fun _ => ()

theorem writes_label {l : Ref α} (h : IsName l.name) :
    Writes true l.writeLabel fun ts us => LabelForm ts us (l.map eraseNote) := by
  obtain ⟨x, note⟩ := l
  have hcolon : Writes false ":" (Sole .colon ":") := writes_mark rfl rfl
  refine (hcolon.append (writes_name h) nofun).mono ?_
  rintro ts vs ⟨us, ⟨colon, rfl, hcolon, -⟩, name, rfl, hname, rfl⟩
  exact .intro hcolon hname

/-- The digits of an integer, with its sign, are a number. -/
theorem word_toString (n : Int) : Word .integer (toString n).toList [] := by
  have hne : Nat.toDigits 10 n.natAbs ≠ [] := Nat.toDigits_ne_nil
  obtain ⟨c, cs, hdigits⟩ := List.exists_cons_of_ne_nil hne
  have hall : ∀ d ∈ c :: cs, Text.isDigit d = true := by
    intro d hd
    rw [← hdigits] at hd
    exact Text.isDigit_of_mem_toDigits hd
  obtain ⟨hc, hcs⟩ := List.forall_mem_cons.mp hall
  rw [Text.toList_toString, hdigits]
  split
  · exact .number hc hcs nofun
  · exact .negative hc hcs nofun

theorem writes_number {n : Int} (h : IsShort n) :
    Writes true (toString n) fun ts us =>
      Sole .integer (toString n) ts us ∧ NumberForm ts us n := by
  have hread := Text.readInteger_toString h
  refine (writes_word (word_toString n) fun _ => ⟨n, hread⟩).mono ?_
  rintro ts us ⟨t, rfl, ht, hlexeme⟩
  exact ⟨⟨t, rfl, ht, hlexeme⟩, .intro ht (hlexeme ▸ hread)⟩

theorem writes_operand {o : Operand α} (h : o.Writable) :
    Writes true o.write fun ts us => OperandForm ts us (o.map eraseNote) := by
  cases o with
  | var x =>
    obtain ⟨x, note⟩ := x
    refine (writes_name h).mono ?_
    rintro ts us ⟨t, rfl, ht, rfl⟩
    exact .var ht
  | int n note =>
    apply (writes_number h).mono
    intro ts us hn
    exact .int hn.2
  | text lexeme note =>
    refine (writes_word h nofun).mono ?_
    rintro ts us ⟨t, rfl, ht, rfl⟩
    exact .text ht
  | label l =>
    apply (writes_label h).mono
    intro ts us hl
    exact .label hl

/-- Words with blanks between them, for any relation of tokens that is built up word by word. -/
theorem writes_intercalate {β : Type} {write : β → String} {F : β → List Token → List Token → Prop}
    {R : List β → List Token → List Token → Prop} (hnil : ∀ ts, R [] ts ts)
    (hcons : ∀ {b bs ts us vs}, F b ts us → R bs us vs → R (b :: bs) ts vs) {bs : List β}
    (h : ∀ b ∈ bs, Writes true (write b) (F b)) :
    Writes true (" ".intercalate (bs.map write)) (R bs) := by
  induction bs with
  | nil =>
    refine (Writes.empty.mono ?_).tighten
    rintro ts _ rfl
    exact hnil ts
  | cons b bs ih =>
    obtain ⟨hb, hbs⟩ := List.forall_mem_cons.mp h
    cases bs with
    | nil =>
      -- there is no blank behind the last word
      rw [List.map_cons, List.map_nil, String.intercalate_singleton]
      apply hb.mono
      intro ts us h
      exact hcons h (hnil us)
    | cons b' bs =>
      have hrest := ih hbs
      rw [List.map_cons] at hrest
      rw [List.map_cons, List.map_cons, String.intercalate_cons_cons]
      refine (hb.space.append hrest nofun).mono ?_
      rintro ts vs ⟨us, h, hrow⟩
      exact hcons h hrow

theorem closes_writeArgs (words : List String) : closes (writeArgs words) = true := by
  rw [writeArgs, String.append_assoc]
  exact closes_append rfl

/-- Parentheses around a row of words. -/
theorem writes_args {words : List String} {R : List Token → List Token → Prop}
    (h : Writes true (" ".intercalate words) R) :
    Writes false (writeArgs words) (Then (Sole .lparen "(") (Then R (Sole .rparen ")"))) := by
  have hopening : Writes false "(" (Sole .lparen "(") := writes_mark rfl rfl
  have hclose : Writes false ")" (Sole .rparen ")") := writes_mark rfl rfl
  refine ((hopening.append h nofun).append hclose fun _ => rfl).mono ?_
  rintro ts ws ⟨vs, ⟨us, hus, hvs⟩, hws⟩
  exact ⟨us, hus, vs, hvs, hws⟩

theorem writes_operands {os : List (Operand α)} (h : ∀ o ∈ os, o.Writable) :
    Writes false (writeArgs (os.map Operand.write)) fun ts us =>
      ArgsForm ts us (os.map (Operand.map eraseNote)) := by
  have hrow : Writes true (" ".intercalate (os.map Operand.write)) fun ts us =>
      OperandsForm ts us (os.map (Operand.map eraseNote)) := by
    apply writes_intercalate
      (R := fun os ts us => OperandsForm ts us (os.map (Operand.map eraseNote)))
    · intro ts
      exact .nil
    · intro o os ts us vs ho hos
      exact .cons ho hos
    · intro o ho
      exact writes_operand (h o ho)
  refine (writes_args hrow).mono ?_
  rintro ts us ⟨_, ⟨opening, rfl, hopening, -⟩, _, hos, close, rfl, hclose, -⟩
  exact .intro hopening hos hclose

theorem closes_offset (n : Int) : closes (writeOffset n ++ "]") = true := by
  unfold writeOffset
  split
  · rfl
  · split
    · apply closes_append
      have hminus : ¬0 ≤ n := by omega
      simp only [closes, Text.toList_toString, if_neg hminus]
      rfl
    · exact closes_append (closes_append rfl)

theorem writes_offset {n : Int} (h : IsShort n) :
    Writes false (writeOffset n ++ "]")
      (Then (fun ts us => OffsetForm ts us n) (Sole .rbracket "]")) := by
  have hclose : Writes false "]" (Sole .rbracket "]") := writes_mark rfl rfl
  unfold writeOffset
  split
  · rename_i hzero
    subst hzero
    refine (Writes.empty.append hclose nofun).mono ?_
    rintro ts us ⟨_, rfl, hus⟩
    exact ⟨ts, .none, hus⟩
  · split
    · -- the sign belongs to the number, and is what tells the reader that an offset follows
      rename_i hneg
      refine ((writes_number h).append hclose fun _ => rfl).mono ?_
      rintro ts vs ⟨us, ⟨⟨t, rfl, -, hlexeme⟩, hn⟩, hus⟩
      refine ⟨us, .minus hn ?_, hus⟩
      rw [hlexeme, Text.toList_toString, if_neg (by omega)]
      rfl
    · have hplus : Writes false "+" (Sole .plus "+") := writes_mark rfl rfl
      refine ((hplus.append (writes_number h) nofun).append hclose fun _ => rfl).mono ?_
      rintro ts ws ⟨vs, ⟨us, ⟨t, rfl, ht, -⟩, -, hn⟩, hvs⟩
      exact ⟨vs, .plus ht hn, hvs⟩

theorem writes_address {a : Address α} (h : a.Writable) :
    Writes false a.write fun ts us => AddressForm ts us (a.map eraseNote) := by
  obtain ⟨⟨x, note⟩, n, note'⟩ := a
  have hopening : Writes false "[" (Sole .lbracket "[") := writes_mark rfl rfl
  refine ((hopening.append (writes_name h.1) nofun).append (writes_offset h.2)
    fun _ => closes_offset n).mono ?_
  rintro ts us ⟨_, ⟨_, ⟨opening, rfl, hopening, -⟩, base, rfl, hbase, rfl⟩, _, hn, close, rfl,
    hclose, -⟩
  exact .intro hopening hbase hn hclose

/-! ### Instructions -/

theorem writes_dest {dest : Option (Ref α)} (h : ∀ x ∈ dest, IsName x.name) :
    Writes false (writeDest dest) fun ts us => DestForm ts us (dest.map (Ref.map eraseNote)) := by
  cases dest with
  | none =>
    refine Writes.empty.mono ?_
    rintro ts _ rfl
    exact .none
  | some x =>
    obtain ⟨x, note⟩ := x
    refine ((writes_name (h _ rfl)).append writes_assign fun _ => rfl).mono ?_
    rintro ts us ⟨_, ⟨t, rfl, ht, rfl⟩, eq, rfl, heq, -⟩
    exact .some ht heq

theorem writes_callee {c : Callee α} (h : c.Writable) :
    Writes true c.write fun ts us => CalleeForm ts us (c.map eraseNote) := by
  cases c with
  | var x =>
    obtain ⟨x, note⟩ := x
    refine (writes_name h).mono ?_
    rintro ts us ⟨t, rfl, ht, rfl⟩
    exact .var ht
  | label l =>
    apply (writes_label h).mono
    intro ts us hl
    exact .label hl

theorem writes_instr {i : Instr α} (h : i.Writable) :
    Writes true i.write fun ts us => InstrForm ts us (i.map eraseNote) := by
  cases i with
  | assign x o note =>
    have hdest : ∀ y ∈ some x, IsName y.name := by simpa using h.1
    refine ((writes_dest hdest).append (writes_operand h.2) nofun).mono ?_
    rintro ts us ⟨_, hx, ho⟩
    exact .assign hx ho
  | call dest callee args note =>
    have hcall : Writes false "call " (Sole .call "call") :=
      writes_keyword .call "call" (by decide) (by decide)
    refine ((((writes_dest h.1).append hcall nofun).append (writes_callee h.2.1) nofun).append
      (writes_operands h.2.2) fun _ => closes_writeArgs _).tighten.mono ?_
    rintro ts us ⟨_, ⟨_, ⟨_, hdest, keyword, rfl, hkeyword, -⟩, hcallee⟩, hargs⟩
    exact .call hdest hkeyword hcallee hargs
  | apply dest op args note =>
    refine (((writes_dest h.1).append (writes_name h.2.1) nofun).append
      (writes_operands h.2.2) fun _ => closes_writeArgs _).tighten.mono ?_
    rintro ts us ⟨_, ⟨_, hdest, op, rfl, hop, rfl⟩, hargs⟩
    exact .apply hdest hop hargs
  | store a o note =>
    refine (((writes_address h.1).append writes_assign nofun).append
      (writes_operand h.2) nofun).mono ?_
    rintro ts us ⟨_, ⟨_, ha, eq, rfl, heq, -⟩, ho⟩
    exact .store ha heq ho
  | load x a note =>
    have hdest : ∀ y ∈ some x, IsName y.name := by simpa using h.1
    refine ((writes_dest hdest).append (writes_address h.2) nofun).tighten.mono ?_
    rintro ts us ⟨_, hx, ha⟩
    exact .load hx ha
  | branch o positive l note =>
    have hgoto : Writes false (" " ++ "goto ") (Sole .goto "goto") :=
      (writes_keyword .goto "goto" (by decide) (by decide)).indent rfl
    have hkeyword : Writes false (if positive then "if " else "if0 ")
        (Sole (if positive then .ifTrue else .ifZero) (if positive then "if" else "if0")) := by
      cases positive
      · exact writes_keyword .ifZero "if0" (by decide) (by decide)
      · exact writes_keyword .ifTrue "if" (by decide) (by decide)
    refine (((hkeyword.append (writes_operand h.1) nofun).append hgoto fun _ => rfl).append
      (writes_label h.2) nofun).mono ?_
    rintro ts us ⟨_, ⟨_, ⟨_, ⟨keyword, rfl, hkeyword, -⟩, ho⟩, goto, rfl, hgoto, -⟩, hl⟩
    exact .branch hkeyword ho hgoto hl
  | goto l note =>
    have hgoto := writes_keyword .goto "goto" (by decide) (by decide)
    refine (hgoto.append (writes_label h) nofun).mono ?_
    rintro ts us ⟨_, ⟨keyword, rfl, hkeyword, -⟩, hl⟩
    exact .goto hkeyword hl
  | ret value note =>
    have hret : Word .ret "ret".toList [] := by decide
    cases value with
    | none =>
      refine (writes_word hret nofun).mono ?_
      rintro ts us ⟨keyword, rfl, hkeyword, -⟩
      exact .ret hkeyword
    | some o =>
      have hkeyword := writes_keyword .ret "ret" hret (by decide)
      refine (hkeyword.append (writes_operand (h o rfl)) nofun).mono ?_
      rintro ts us ⟨_, ⟨keyword, rfl, hkeyword, -⟩, ho⟩
      exact .retValue hkeyword ho

/-! ### Data -/

theorem writes_datum {d : Datum α} (h : d.Writable) :
    Writes true d.write fun ts us => DatumForm ts us (d.map eraseNote) := by
  cases d with
  | int n note =>
    apply (writes_number h).mono
    intro ts us hn
    exact .int hn.2
  | label l =>
    apply (writes_label h).mono
    intro ts us hl
    exact .label hl

end Vapor
