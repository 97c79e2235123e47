/-
Vapor/Proofs/Parsed.lean

What the reader of source text guarantees of the functions it returns: no
parameter and no label of a function occurs twice, and every label stands before
an instruction of the function or at its end (`parse_wellFormed`).

A reader is a function of the cursor, so a guarantee is a statement about every
run of it that succeeds (`Parser.Ensures`).  Such statements follow the way the
readers are put together; where a reader carries a list of names it has seen, the
names it returns are different from one another and from those.
-/
import Vapor.Program.Parser

namespace Vapor

variable {α : Type}

/-- No parameter and no label occurs twice, and every label has a place in the
function. -/
structure Function.WellFormed (fn : Function α) : Prop where
  params_nodup : (fn.params.map Ref.name).Nodup
  labels_nodup : (fn.labels.map Label.name).Nodup
  label_index : ∀ l ∈ fn.labels, ∃ i : Nat, l.index = i ∧ i ≤ fn.body.length

namespace Parser

variable {β γ : Type}

/-! ### Guarantees of readers -/

/-- Whatever the reader returns has the property. -/
def Ensures (x : Parser β) (P : β → Prop) : Prop :=
  ∀ s b s', x.run s = .ok (b, s') → P b

theorem Ensures.pure {b : β} {P : β → Prop} (h : P b) : Ensures (pure b : Parser β) P := by
  intro s b' s' hrun
  obtain rfl : b = b' := congrArg Prod.fst (Except.ok.inj hrun)
  exact h

theorem Ensures.throw {e : ParseError} {P : β → Prop} :
    Ensures (MonadExcept.throw e : Parser β) P := by
  intro s b s' hrun
  cases hrun

/-- Two readers in a row succeed only if both do. -/
theorem run_bind_ok {x : Parser β} {f : β → Parser γ} {s s' : Cursor} {c : γ}
    (h : (x >>= f).run s = .ok (c, s')) :
    ∃ b s₁, x.run s = .ok (b, s₁) ∧ (f b).run s₁ = .ok (c, s') := by
  rw [StateT.run_bind] at h
  rcases hx : x.run s with e | ⟨b, s₁⟩
  · rw [hx] at h
    cases h
  · rw [hx] at h
    exact ⟨b, s₁, rfl, h⟩

theorem Ensures.bind {x : Parser β} {f : β → Parser γ} {P : β → Prop} {Q : γ → Prop}
    (hx : Ensures x P) (hf : ∀ b, P b → Ensures (f b) Q) : Ensures (x >>= f) Q := by
  intro s c s' hrun
  obtain ⟨b, s₁, hb, hc⟩ := run_bind_ok hrun
  exact hf b (hx s b s₁ hb) s₁ c s' hc

/-- What comes first does not matter if the guarantee holds whatever it returns. -/
theorem Ensures.after {x : Parser β} {f : β → Parser γ} {Q : γ → Prop}
    (hf : ∀ b, Ensures (f b) Q) : Ensures (x >>= f) Q :=
  Ensures.bind (P := fun _ => True) (fun _ _ _ _ => trivial) fun b _ => hf b

theorem Ensures.ite {c : Prop} [Decidable c] {x y : Parser β} {P : β → Prop}
    (hx : c → Ensures x P) (hy : ¬c → Ensures y P) : Ensures (if c then x else y) P := by
  split
  · exact hx ‹_›
  · exact hy ‹_›

/-! ### Parameters and labels -/

/-- The parameters are different from one another and from the names seen. -/
theorem params_ensures (rounds : Nat) (seen : List String) :
    Ensures (params seen rounds) fun r =>
      (r.1.map Ref.name).Nodup ∧ ∀ x ∈ r.1, x.name ∉ seen := by
  induction rounds generalizing seen with
  | zero => exact Ensures.throw
  | succ rounds ih =>
    refine Ensures.after fun t => Ensures.ite (fun _ => ?_) fun _ => ?_
    · exact Ensures.after fun _ => Ensures.pure ⟨.nil, fun x hx => by cases hx⟩
    · refine Ensures.after fun name => Ensures.ite
        (fun _ => Ensures.bind (P := fun _ => False) Ensures.throw fun _ h => h.elim)
        fun hname => Ensures.bind (ih _) fun r hr => Ensures.pure ?_
      obtain ⟨hnodup, hseen⟩ := hr
      refine ⟨List.nodup_cons.mpr ⟨fun hmem => ?_, hnodup⟩, fun x hx => ?_⟩
      · obtain ⟨x, hx, hxn⟩ := List.mem_map.mp hmem
        exact hseen x hx (hxn ▸ List.mem_cons_self)
      · rcases List.mem_cons.mp hx with rfl | hx
        · exact hname
        · exact fun h => hseen x hx (List.mem_cons_of_mem _ h)

/-- What holds of the lines of a function from the instruction with this index
on: the labels are different from one another and from the names seen, and each
has its place among these lines. -/
structure Block.Fits (b : Block) (index : Nat) (seen : List String) : Prop where
  nodup : (b.labels.map Label.name).Nodup
  unseen : ∀ l ∈ b.labels, l.name ∉ seen
  place : ∀ l ∈ b.labels, ∃ i : Nat, l.index = i ∧ index ≤ i ∧ i ≤ index + b.body.length

theorem Block.Fits.label {b : Block} {index : Nat} {seen : List String} {name : String}
    {span : Span} (h : b.Fits index (name :: seen)) (hname : name ∉ seen) :
    Block.Fits { b with labels := ⟨name, index, span⟩ :: b.labels } index seen where
  nodup := by
    refine List.nodup_cons.mpr ⟨fun hmem => ?_, h.nodup⟩
    obtain ⟨l, hl, hln⟩ := List.mem_map.mp hmem
    exact h.unseen l hl (hln ▸ List.mem_cons_self)
  unseen := by
    intro l hl
    rcases List.mem_cons.mp hl with rfl | hl
    · exact hname
    · exact fun hs => h.unseen l hl (List.mem_cons_of_mem _ hs)
  place := by
    intro l hl
    rcases List.mem_cons.mp hl with rfl | hl
    · exact ⟨index, rfl, Nat.le_refl _, Nat.le_add_right ..⟩
    · exact h.place l hl

theorem Block.Fits.instr {b : Block} {index : Nat} {seen : List String} {i : Instr Span}
    (h : b.Fits (index + 1) seen) : Block.Fits { b with body := i :: b.body } index seen where
  nodup := h.nodup
  unseen := h.unseen
  place := by
    intro l hl
    obtain ⟨k, hk, hlow, hhigh⟩ := h.place l hl
    refine ⟨k, hk, ?_, ?_⟩
    · omega
    · rw [List.length_cons]
      omega

theorem block_ensures (rounds index : Nat) (seen : List String) (last : Span) :
    Ensures (block index seen last rounds) fun b => b.Fits index seen := by
  induction rounds generalizing index seen last with
  | zero => exact Ensures.throw
  | succ rounds ih =>
    refine Ensures.after fun s => Ensures.ite (fun _ => ?_) fun _ => Ensures.ite (fun _ => ?_)
      fun _ => Ensures.ite (fun _ => ?_) fun _ => ?_
    · -- the end of the function
      refine Ensures.pure ⟨.nil, fun l hl => ?_, fun l hl => ?_⟩ <;> cases hl
    · exact Ensures.after fun _ => ih index seen last
    · refine Ensures.after fun name => Ensures.after fun _ => Ensures.ite
        (fun _ => Ensures.bind (P := fun _ => False) Ensures.throw fun _ h => h.elim)
        fun hname => ?_
      exact Ensures.after fun _ => Ensures.bind (ih index (name.lexeme :: seen) name.span)
        fun b hb => Ensures.pure (hb.label hname)
    · refine Ensures.after fun i => Ensures.after fun _ => ?_
      exact Ensures.bind (ih (index + 1) seen i.note) fun b hb => Ensures.pure hb.instr

/-! ### Functions and programs -/

theorem function_ensures (keyword : Token) :
    Ensures (function keyword) Function.WellFormed := by
  refine Ensures.after fun name => Ensures.after fun _ => Ensures.after fun rounds => ?_
  refine Ensures.bind (params_ensures rounds []) fun r hr => ?_
  refine Ensures.after fun _ => Ensures.after fun rounds' => ?_
  refine Ensures.bind (block_ensures rounds' 0 [] r.2) fun b hb => Ensures.pure ?_
  refine ⟨hr.1, hb.nodup, fun l hl => ?_⟩
  obtain ⟨i, hi, -, hle⟩ := hb.place l hl
  exact ⟨i, hi, by simpa using hle⟩

theorem items_ensures (rounds : Nat) :
    Ensures (items rounds) fun r => ∀ fn ∈ r.2, fn.WellFormed := by
  induction rounds with
  | zero => exact Ensures.throw
  | succ rounds ih =>
    refine Ensures.after fun t => ?_
    split
    · exact Ensures.pure fun fn hfn => by cases hfn
    · exact Ensures.after fun _ => ih
    -- segments of either kind leave the functions as they are
    · exact Ensures.after fun _ => Ensures.after fun _ => Ensures.bind ih fun _ hr =>
        Ensures.pure hr
    · exact Ensures.after fun _ => Ensures.after fun _ => Ensures.bind ih fun _ hr =>
        Ensures.pure hr
    · refine Ensures.after fun _ => Ensures.bind (function_ensures t) fun fn hfn =>
        Ensures.bind ih fun r hr => Ensures.pure fun fn' hmem => ?_
      rcases List.mem_cons.mp hmem with rfl | hmem
      · exact hfn
      · exact hr fn' hmem
    · exact Ensures.after fun _ => Ensures.throw

theorem program_ensures : Ensures program fun p => ∀ fn ∈ p.functions, fn.WellFormed := by
  refine Ensures.after fun start => Ensures.after fun rounds => ?_
  refine Ensures.bind (items_ensures rounds) fun r hr => ?_
  obtain ⟨segments, functions⟩ := r
  dsimp only
  split
  · exact Ensures.throw
  · exact Ensures.after fun _ => Ensures.pure hr

end Parser

/-- **Functions that have been read are well-formed.** -/
theorem parse_wellFormed {tokens : List Token} {p : Program Span} (h : parse tokens = .ok p) :
    ∀ fn ∈ p.functions, fn.WellFormed := by
  unfold parse at h
  split at h
  · cases h
  · rename_i s _
    rcases hrun : Parser.program.run s with e | ⟨p', s'⟩
    · rw [hrun] at h
      cases h
    · rw [hrun] at h
      obtain rfl : p' = p := Except.ok.inj h
      exact Parser.program_ensures s p' s' hrun

/-! ### A program

A function that counts its first parameter down and calls itself with the others
shifted by one place.  It has a loop, a call in it, a label at which control falls
in, and one more parameter than there are argument registers. -/

namespace Sample

/-- The place of everything in the program. -/
def span : Span :=
  Span.at (Pos.first "sample")

/-- An occurrence of a name. -/
def ref (name : String) : Ref Span :=
  ⟨name, span⟩

/-- A token. -/
def token (kind : Token.Kind) (lexeme : String) : Token :=
  ⟨kind, lexeme, span⟩

/-- The end of a line. -/
def newline : Token :=
  token .newline "\n"

/-- An identifier. -/
def ident (name : String) : Token :=
  token .ident name

/-- The tokens of the program, line by line. -/
def tokens : List Token :=
  [token .func "func", ident "Sum", token .lparen "(", ident "n", ident "a", ident "b", ident "c",
    ident "d", token .rparen ")", newline] ++
  [ident "loop", token .colon ":", newline] ++
  [token .ifZero "if0", ident "n", token .goto "goto", token .colon ":", ident "end", newline] ++
  [ident "n", token .assign "=", ident "Sub", token .lparen "(", ident "n", token .integer "1",
    token .rparen ")", newline] ++
  [ident "a", token .assign "=", token .call "call", token .colon ":", ident "Sum",
    token .lparen "(", ident "n", ident "b", ident "c", ident "d", ident "a",
    token .rparen ")", newline] ++
  [token .goto "goto", token .colon ":", ident "loop", newline] ++
  [ident "end", token .colon ":", newline] ++
  [token .ret "ret", ident "a", newline, token .eof ""]

/-- The function of the program. -/
def function : Function Span where
  name := "Sum"
  params := [ref "n", ref "a", ref "b", ref "c", ref "d"]
  body :=
    [.branch (.var (ref "n")) false (ref "end") span,
      .apply (some (ref "n")) "Sub" [.var (ref "n"), .int 1 span] span,
      .call (some (ref "a")) (.label (ref "Sum"))
        [.var (ref "n"), .var (ref "b"), .var (ref "c"), .var (ref "d"), .var (ref "a")] span,
      .goto (ref "loop") span,
      .ret (some (.var (ref "a"))) span]
  labels := [⟨"loop", 0, span⟩, ⟨"end", 4, span⟩]
  note := span

/-- The program. -/
def program : Program Span :=
  ⟨[], [function], span⟩

/-- The program is what its tokens stand for. -/
theorem parse_tokens : parse tokens = .ok program := by
  rfl

theorem mem_functions : function ∈ program.functions :=
  List.mem_singleton_self function

end Sample

end Vapor
