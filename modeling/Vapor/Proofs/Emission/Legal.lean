/-
Vapor/Proofs/Emission/Legal.lean

Every line that is written is an instruction of the machine (`lines_legal`).  `Legal` lists
the forms of these, each with its text: of the two sides of an assignment at most one is a
slot or a place in memory, and operations, branches and calls take registers and literals
only.  The literals are those of the function.

The forms are found by going through the list of the lines that can be written
(`Written.legal`, `Arriving.legal`).  An operand begins with a character that begins no
name, no slot and no place in memory (`opensOperand`), so that in a function that is read
from a text none of these can be taken for an operand.
-/
import Vapor.Proofs.Allocation.Interval
import Vapor.Proofs.Emission.Notes
import Vapor.Proofs.Rendering.Lexical

namespace Vapor

open Machine Text

variable {α : Type}

/-! ### Operands -/

/-- The operands of an instruction. -/
def Instr.operands : Instr α → List (Operand α)
  | .assign _ source _ => [source]
  | .call _ _ args _ => args
  | .apply _ _ args _ => args
  | .store _ source _ => [source]
  | .load _ _ _ => []
  | .branch test _ _ _ => [test]
  | .goto _ _ => []
  | .ret value _ => value.toList

/-- The operands of the instructions of a function. -/
def Function.operands (fn : Function α) : List (Operand α) :=
  fn.body.flatMap Instr.operands

theorem Function.mem_operands {fn : Function α} {i : Instr α} (hi : i ∈ fn.body)
    {o : Operand α} (ho : o ∈ i.operands) : o ∈ fn.operands :=
  List.mem_flatMap.mpr ⟨i, hi, ho⟩

namespace Machine

/-- The operands of a line. -/
def Line.operands : Line → List Value
  | .assign _ (.value v) => [v]
  | .assign _ (.apply _ vs) => vs
  | .apply _ vs => vs
  | .call (.register r) => [.register r]
  | .branch _ v _ => [v]
  | _ => []

/-- A value that is an operand in the lines of a function, and its text: a register, or an
integer, a label or a string that is an operand in the function. -/
inductive IsOperand (fn : Function α) : Value → String → Prop where
  | register (r : Register) : IsOperand fn (.register r) r.name
  | int {n : Int} {note : α} (h : .int n note ∈ fn.operands) : IsOperand fn (.int n) (toString n)
  | label {l : Ref α} (h : .label l ∈ fn.operands) : IsOperand fn (.label l.name) (":" ++ l.name)
  | string {lexeme : String} {note : α} (h : .text lexeme note ∈ fn.operands) :
      IsOperand fn (.text lexeme) lexeme

/-- The legal lines of a function below its header, each with its text. -/
inductive Legal (fn : Function α) : Line → String → Prop where
  | label {l : Label α} (h : l ∈ fn.labels) : Legal fn (.label l.name) (l.name ++ ":")
  | copy (r : Register) {v : Value} {t : String} (h : IsOperand fn v t) :
      Legal fn (.assign (.register r) (.value v)) (r.name ++ " = " ++ t)
  | fromIn (r : Register) (k : Nat) :
      Legal fn (.assign (.register r) (.inSlot k)) (r.name ++ " = " ++ ("in[" ++ toString k ++ "]"))
  | fromLocal (r : Register) (k : Nat) :
      Legal fn (.assign (.register r) (.localSlot k))
        (r.name ++ " = " ++ ("local[" ++ toString k ++ "]"))
  | load (r base : Register) (offset : Int) :
      Legal fn (.assign (.register r) (.memory base offset)) (r.name ++ " = " ++ memory base offset)
  | applyTo (r : Register) (op : String) {vs : List Value} {ts : List String}
      (h : List.Forall₂ (IsOperand fn) vs ts) :
      Legal fn (.assign (.register r) (.apply op vs))
        (r.name ++ " = " ++ (op ++ "(" ++ String.intercalate " " ts ++ ")"))
  | toLocal (k : Nat) (r : Register) :
      Legal fn (.assign (.localSlot k) (.value (.register r)))
        ("local[" ++ toString k ++ "]" ++ " = " ++ r.name)
  | toOut (k : Nat) {v : Value} {t : String} (h : IsOperand fn v t) :
      Legal fn (.assign (.outSlot k) (.value v)) ("out[" ++ toString k ++ "]" ++ " = " ++ t)
  | store (base : Register) (offset : Int) {v : Value} {t : String} (h : IsOperand fn v t) :
      Legal fn (.assign (.memory base offset) (.value v)) (memory base offset ++ " = " ++ t)
  | apply (op : String) {vs : List Value} {ts : List String}
      (h : List.Forall₂ (IsOperand fn) vs ts) :
      Legal fn (.apply op vs) (op ++ "(" ++ String.intercalate " " ts ++ ")")
  | callRegister (r : Register) : Legal fn (.call (.register r)) ("call " ++ r.name)
  | callLabel (f : String) : Legal fn (.call (.label f)) ("call " ++ (":" ++ f))
  | ifTrue {v : Value} {t : String} (h : IsOperand fn v t) (target : String) :
      Legal fn (.branch true v target) ("if " ++ t ++ " goto " ++ (":" ++ target))
  | ifZero {v : Value} {t : String} (h : IsOperand fn v t) (target : String) :
      Legal fn (.branch false v target) ("if0 " ++ t ++ " goto " ++ (":" ++ target))
  | goto (target : String) : Legal fn (.goto target) ("goto " ++ (":" ++ target))
  | ret : Legal fn .ret "ret"

variable {fn : Function α} {l : Line} {t : String}

/-- Of the two sides of an assignment one is a register, or the other an operand. -/
theorem Legal.sides {dest : Dest} {source : Source} (h : Legal fn (.assign dest source) t) :
    (∃ r, dest = .register r) ∨ ∃ v, source = .value v := by
  cases h with
  | copy r | fromIn r | fromLocal r | load r | applyTo r => exact .inl ⟨r, rfl⟩
  | toLocal | toOut | store => exact .inr ⟨_, rfl⟩

theorem exists_text_of_forall₂ {vs : List Value} {ts : List String}
    (h : List.Forall₂ (IsOperand fn) vs ts) : ∀ v ∈ vs, ∃ t, IsOperand fn v t := by
  induction h with
  | nil => exact fun v hv => by cases hv
  | cons hv _ ih => exact List.forall_mem_cons.mpr ⟨⟨_, hv⟩, ih⟩

/-- The operands of a legal line are registers and literals. -/
theorem Legal.operands (h : Legal fn l t) : ∀ v ∈ l.operands, ∃ t, IsOperand fn v t := by
  cases h with
  | copy _ h | toOut _ h | store _ _ h | ifTrue h | ifZero h =>
    exact fun v hv => ⟨_, List.mem_singleton.mp hv ▸ h⟩
  | toLocal _ r | callRegister r =>
    exact fun v hv => ⟨r.name, List.mem_singleton.mp hv ▸ IsOperand.register r⟩
  | applyTo _ _ h | apply _ h => exact exists_text_of_forall₂ h
  | label | fromIn | fromLocal | load | callLabel | goto | ret => exact fun v hv => by cases hv

end Machine

/-! ### The lines of a function -/

namespace Emit

variable {fn : Function α} {m : Allocation} {live : Liveness} {kept : List Register} {l : Line}

theorem isOperand_of_literal {o : Operand α} (ho : o ∈ fn.operands) {v : Value}
    (h : literal o = .inr v) : IsOperand fn v v.render := by
  cases o with
  | var x => cases h
  | int n note =>
    obtain rfl := Sum.inr.inj h
    exact .int ho
  | text lexeme note =>
    obtain rfl := Sum.inr.inj h
    exact .string ho
  | label l =>
    obtain rfl := Sum.inr.inj h
    exact .label ho

theorem Becomes.isOperand {o : Operand α} {v : Value} (h : Becomes m o v)
    (ho : o ∈ fn.operands) : IsOperand fn v v.render := by
  cases h with
  | var => exact .register _
  | literal h => exact isOperand_of_literal ho h

theorem forall₂_isOperand {os : List (Operand α)} {vs : List Value}
    (h : List.Forall₂ (Becomes m) os vs) (hos : ∀ o ∈ os, o ∈ fn.operands) :
    List.Forall₂ (IsOperand fn) vs (vs.map Value.render) := by
  induction h with
  | nil => exact .nil
  | cons hv _ ih =>
    obtain ⟨ho, hos⟩ := List.forall_mem_cons.mp hos
    exact .cons (hv.isOperand ho) (ih hos)

/-- A variable in a register, or in a slot, is brought to a register. -/
theorem legal_fromLocation (fn : Function α) (r : Register) (place : Location) :
    Legal fn (.assign (.register r) (fromLocation place))
      (Line.render (.assign (.register r) (fromLocation place))) := by
  cases place with
  | register q => exact .copy r (.register q)
  | slot k => exact .fromLocal r k

theorem legal_toLocation (fn : Function α) (r : Register) (place : Location) :
    Legal fn (.assign (toLocation place) (.value (.register r)))
      (Line.render (.assign (toLocation place) (.value (.register r)))) := by
  cases place with
  | register q => exact .copy q (.register r)
  | slot k => exact .toLocal k r

/-- **The lines of an instruction are legal.** -/
theorem Written.legal {i : Instr α} (hi : i ∈ fn.body) (h : Written m kept i l) :
    Legal fn l l.render := by
  have hmem : ∀ {o : Operand α}, o ∈ i.operands → o ∈ fn.operands := Function.mem_operands hi
  cases h with
  | fetch | restore | unsave => exact .fromLocal _ _
  | putBack | keep => exact .toLocal _ _
  | assign _ hv => exact .copy _ (hv.isOperand (hmem List.mem_cons_self))
  | passVar => exact legal_fromLocation fn _ _
  | passLiteral harg _ hv =>
    exact .copy _ (isOperand_of_literal (hmem (List.mem_of_getElem? harg)) hv)
  | passSlot harg _ hv => exact .toOut _ (hv.isOperand (hmem (List.mem_of_getElem? harg)))
  | callLabel => exact .callLabel _
  | callVar => exact .callRegister _
  | result => exact .copy _ (.register .result)
  | apply hvs => exact .apply _ (forall₂_isOperand hvs fun _ ho => hmem ho)
  | applyTo _ hvs => exact .applyTo _ _ (forall₂_isOperand hvs fun _ ho => hmem ho)
  | store _ hv => exact .store _ _ (hv.isOperand (hmem List.mem_cons_self))
  | load => exact .load _ _ _
  | @branch _ positive _ _ _ hv =>
    have hv := hv.isOperand (hmem List.mem_cons_self)
    cases positive with
    | true => exact .ifTrue hv _
    | false => exact .ifZero hv _
  | goto => exact .goto _
  | value hv => exact .copy _ (hv.isOperand (hmem List.mem_cons_self))
  | ret => exact .ret

/-- The lines that bring parameters to their places are legal. -/
theorem Arriving.legal {xs : List (Ref α)} (h : Arriving m xs l) (fn : Function α) :
    Legal fn l l.render := by
  cases h with
  | fromRegister => exact legal_toLocation fn _ _
  | fromSlot => exact .fromIn _ _
  | toSlot => exact .toLocal _ _

/-- All lines below the header are legal. -/
theorem legal_of_mem (hm : m.WellFormed)
    (hl : l ∈ (prologue fn m live Pool.scratch).lines ++ below fn m live) :
    Legal fn l l.render := by
  rw [prologue_lines, List.mem_append, List.mem_append] at hl
  rcases hl with (hl | hl) | hl
  · obtain ⟨j, r, -, rfl⟩ := mem_saveLines.mp hl
    exact .toLocal _ r
  · exact (arriving_of_mem_arrivals hl).legal fn
  · rcases mem_below hl with ⟨name, rfl⟩ | ⟨index, i, hi, hmem⟩
    · obtain ⟨label, hlabel, rfl⟩ := exists_label_of_mem hm hl
      exact .label hlabel
    · exact (written_of_mem_group hm hmem).legal (List.mem_of_getElem? hi)

end Emit

/-! ### The texts of operands -/

/-- Registers begin with a dollar sign, integers with a digit or a minus sign, labels with a
colon and strings with a quote. -/
def opensOperand (c : Char) : Bool :=
  isDigit c || c == '$' || c == '-' || c == ':' || c == '"'

theorem opensOperand_eq_false {c : Char} (h : isIdentStart c = true) : opensOperand c = false := by
  have hdigit : isDigit c = false := by
    cases hc : isDigit c with
    | false => rfl
    | true => rw [isIdentStart_eq_false_of_isDigit hc] at h; cases h
  have hne : ∀ d, isIdentStart d = false → (c == d) = false := by
    intro d hd
    refine beq_eq_false_iff_ne.mpr ?_
    rintro rfl
    rw [hd] at h
    cases h
  rw [opensOperand, hdigit, hne '$' (by decide), hne '-' (by decide), hne ':' (by decide),
    hne '"' (by decide)]
  rfl

/-- The text begins as no operand does. -/
def NoOperand (s : String) : Prop :=
  ∃ c cs, s.toList = c :: cs ∧ opensOperand c = false

theorem NoOperand.append {s : String} (h : NoOperand s) (t : String) : NoOperand (s ++ t) := by
  obtain ⟨c, cs, hs, hc⟩ := h
  refine ⟨c, cs ++ t.toList, ?_, hc⟩
  rw [String.toList_append, hs, List.cons_append]

theorem IsName.noOperand {s : String} (h : IsName s) : NoOperand s := by
  generalize htext : s.toList = w
  unfold IsName at h
  rw [htext] at h
  generalize hkind : Token.Kind.ident = kind at h
  cases h with
  | name hc => exact ⟨_, _, htext, opensOperand_eq_false hc⟩
  | number | negative | text => cases hkind
  | mark h =>
    subst hkind
    unfold Token.Kind.ofChar? at h
    split at h <;> cases h

/-- A slot is written as the word for its area and its number. -/
theorem noOperand_slot {area : String} (h : NoOperand area) (k : Int) :
    NoOperand (area ++ toString k ++ "]") :=
  (h.append (toString k)).append "]"

theorem noOperand_memory (base : Register) (offset : Int) : NoOperand (memory base offset) := by
  have hbase : NoOperand ("[" ++ base.name) := NoOperand.append ⟨'[', _, rfl, by decide⟩ _
  unfold memory
  split
  · exact hbase.append "]"
  split
  · exact (hbase.append (toString offset)).append "]"
  · exact ((hbase.append "+").append (toString offset)).append "]"

theorem exists_opensOperand {v : Value} (hv : v.Lexical) :
    ∃ c cs, v.render.toList = c :: cs ∧ opensOperand c = true := by
  cases v with
  | register r => exact ⟨'$', _, toList_name r, by decide⟩
  | int n =>
    rw [Value.render, toList_toString]
    split
    · obtain ⟨c, cs, hdigits⟩ := List.exists_cons_of_ne_nil
        (Nat.toDigits_ne_nil (b := 10) (n := n.natAbs))
      have hc : isDigit c = true :=
        isDigit_of_mem_toDigits (n := n.natAbs) (hdigits ▸ List.mem_cons_self)
      exact ⟨c, cs, hdigits, by rw [opensOperand, hc]; rfl⟩
    · exact ⟨'-', _, rfl, by decide⟩
  | label name => exact ⟨':', name.toList, String.toList_append, by decide⟩
  | text lexeme =>
    obtain ⟨cs, hcs, -⟩ := IsText.quote hv
    exact ⟨'"', cs, hcs, by decide⟩

theorem render_ne_of_noOperand {v : Value} (hv : v.Lexical) {s : String} (hs : NoOperand s) :
    v.render ≠ s := by
  rintro rfl
  obtain ⟨c, cs, hopens, hc⟩ := exists_opensOperand hv
  obtain ⟨d, ds, hother, hd⟩ := hs
  obtain ⟨rfl, -⟩ := List.cons.inj (hopens.symm.trans hother)
  rw [hc] at hd
  cases hd

/-! ### Functions that are read from a text -/

theorem Instr.Lexical.operands {i : Instr α} (h : i.Lexical) : ∀ o ∈ i.operands, o.Lexical := by
  cases i with
  | assign | store => exact List.forall_mem_singleton.mpr h
  | call | apply => exact h.2
  | load | goto => exact fun o ho => by cases ho
  | branch => exact List.forall_mem_singleton.mpr h.1
  | ret => exact fun o ho => h o (Option.mem_toList.mp ho)

theorem Function.Lexical.operands {fn : Function α} (h : fn.Lexical) :
    ∀ o ∈ fn.operands, o.Lexical := by
  intro o ho
  obtain ⟨i, hi, ho⟩ := List.mem_flatMap.mp ho
  exact (h.body i hi).operands o ho

theorem Machine.IsOperand.lexical {fn : Function α} (hfn : fn.Lexical) {v : Value} {t : String}
    (h : IsOperand fn v t) : v.Lexical := by
  cases h with
  | register | int => trivial
  | label h | string h => exact hfn.operands _ h

section Variables

variable {x : String}

theorem Operand.isName_of_vars {o : Operand α} (h : o.Writable) (hx : x ∈ o.vars) : IsName x := by
  cases o with
  | var ref => exact List.mem_singleton.mp hx ▸ h
  | int | text | label => cases hx

theorem Operand.isName_of_flatMap {os : List (Operand α)} (h : ∀ o ∈ os, o.Writable)
    (hx : x ∈ os.flatMap Operand.vars) : IsName x := by
  obtain ⟨o, ho, hx⟩ := List.mem_flatMap.mp hx
  exact isName_of_vars (h o ho) hx

theorem Ref.isName_of_toList {dest : Option (Ref α)} (h : ∀ y ∈ dest, IsName y.name)
    (hx : x ∈ (dest.map Ref.name).toList) : IsName x := by
  cases dest with
  | none => cases hx
  | some y => exact List.mem_singleton.mp hx ▸ h _ rfl

theorem Instr.isName_of_uses {i : Instr α} (h : i.Writable) (hx : x ∈ i.uses) : IsName x := by
  cases i with
  | assign => exact Operand.isName_of_vars h.2 (Names.mem_ofList.mp hx)
  | branch => exact Operand.isName_of_vars h.1 (Names.mem_ofList.mp hx)
  | call dest callee args note =>
    rcases List.mem_append.mp (Names.mem_ofList.mp hx) with hx | hx
    · cases callee with
      | var ref => exact List.mem_singleton.mp hx ▸ h.2.1
      | label => cases hx
    · exact Operand.isName_of_flatMap h.2.2 hx
  | apply => exact Operand.isName_of_flatMap h.2.2 (Names.mem_ofList.mp hx)
  | store dest source note =>
    rcases List.mem_cons.mp (Names.mem_ofList.mp hx) with rfl | hx
    · exact h.1.1
    · exact Operand.isName_of_vars h.2 hx
  | load => exact List.mem_singleton.mp hx ▸ h.2.1
  | goto => cases hx
  | ret value note =>
    exact Operand.isName_of_flatMap (fun o ho => h o (Option.mem_toList.mp ho))
      (Names.mem_ofList.mp hx)

theorem Instr.isName_of_defs {i : Instr α} (h : i.Writable) (hx : x ∈ i.defs) : IsName x := by
  cases i with
  | assign | load => exact List.mem_singleton.mp hx ▸ h.1
  | call | apply => exact Ref.isName_of_toList h.1 hx
  | store | branch | goto | ret => cases hx

/-- The variables of a function that is read from a text are names. -/
theorem isName_of_mentions {path source : String} {tokens : List Token} {p : Program Span}
    (hlex : lex path source = .ok tokens) (hparse : parse tokens = .ok p) {fn : Function Span}
    (hfn : fn ∈ p.functions) (hx : x ∈ fn.params.map Ref.name ∨ fn.Mentions x) : IsName x := by
  have hwritable := (writable_of_parse hlex hparse).functions _ (List.mem_map_of_mem hfn)
  rcases hx with hx | ⟨i, hi, hx | hx⟩
  · obtain ⟨y, hy, rfl⟩ := List.mem_map.mp hx
    exact hwritable.params _ (List.mem_map_of_mem hy)
  · rw [← Instr.uses_map] at hx
    exact Instr.isName_of_uses (hwritable.body _ (List.mem_map_of_mem hi)) hx
  · rw [← Instr.defs_map] at hx
    exact Instr.isName_of_defs (hwritable.body _ (List.mem_map_of_mem hi)) hx

end Variables

/-- **Every line is a legal instruction of the machine.**  Let the variables of a function
have places, and let the function be written.  Then below the header every line has one of
the legal forms.  So no line has slots or memory on both sides.  And if the function is read
from a text, then no operand of a line is written like a variable of the function, like a
slot or like a place in memory. -/
theorem lines_legal {fn : Function Span} {live : Liveness} {registers : List (String × Register)}
    {slots : List (String × Int)} {m : Allocation} (hm : Allocation.ofPlaces registers slots = .ok m)
    {code : List Line} {pool : Pool} {frame : Frame}
    (hlower : (Emit.function fn m live).run Pool.scratch = ⟨code, pool, .ok frame⟩) :
    ∃ body, code = .header fn.name frame :: body ∧
      (∀ l ∈ body, Legal fn l l.render) ∧
      (∀ dest source, .assign dest source ∈ body →
        (∃ r, dest = .register r) ∨ ∃ v, source = .value v) ∧
      ∀ (path source : String) (tokens : List Token) (p : Program Span),
        lex path source = .ok tokens → parse tokens = .ok p → fn ∈ p.functions →
        ∀ l ∈ body, ∀ v ∈ l.operands,
          (∀ x, x ∈ fn.params.map Ref.name ∨ fn.Mentions x → v.render ≠ x) ∧
          (∀ k : Int, v.render ≠ localSlot k ∧ v.render ≠ inSlot k ∧ v.render ≠ outSlot k) ∧
          ∀ (base : Register) (offset : Int), v.render ≠ memory base offset := by
  have hwell := Allocation.wellFormed_of_ofPlaces hm
  obtain ⟨rfl, -, -, -⟩ := Emit.function_spec hwell hlower
  obtain rfl := Emit.frame_eq hlower
  have hlegal : ∀ l ∈ (Emit.prologue fn m live Pool.scratch).lines ++ Emit.below fn m live,
      Legal fn l l.render := fun l hl => Emit.legal_of_mem hwell hl
  refine ⟨_, rfl, hlegal, fun dest source hmem => (hlegal _ hmem).sides, ?_⟩
  intro path source tokens p hlex hparse hfn l hl v hv
  obtain ⟨t, hoperand⟩ := (hlegal l hl).operands v hv
  have hlexical := hoperand.lexical ((lexical_of_parse hlex hparse).functions fn hfn)
  refine ⟨fun x hx => ?_, fun k => ⟨?_, ?_, ?_⟩, fun base offset => ?_⟩
  · exact render_ne_of_noOperand hlexical (isName_of_mentions hlex hparse hfn hx).noOperand
  · exact render_ne_of_noOperand hlexical (noOperand_slot ⟨'l', _, rfl, by decide⟩ k)
  · exact render_ne_of_noOperand hlexical (noOperand_slot ⟨'i', _, rfl, by decide⟩ k)
  · exact render_ne_of_noOperand hlexical (noOperand_slot ⟨'o', _, rfl, by decide⟩ k)
  · exact render_ne_of_noOperand hlexical (noOperand_memory base offset)

namespace Sample

/-- Lines of all kinds with spilled variables, and a variable with the name of a label. -/
def spillSource : String :=
  "func F(x E)\nE:\n  x = [E+4]\n  [x] = \"E\"\n  E = Add(x E 1)\n  x = call E(x 1 2 3 :E)\n" ++
    "  if0 x goto :E\n  ret x\n"

/-- The variables in slots. -/
def spills : Allocation :=
  ⟨[], [("x", 0), ("E", 1)]⟩

/-- Can some function of the source be written with these places? -/
def isSpilled : Bool :=
  match lex "sample" spillSource with
  | .error _ => false
  | .ok tokens =>
    match parse tokens with
    | .error _ => false
    | .ok p => p.functions.any fun fn =>
      match fn.liveness with
      | .error _ => false
      | .ok live => ((Emit.function fn spills live).run Pool.scratch).result.isOk

theorem exists_spilled :
    ∃ tokens p fn live code pool frame, lex "sample" spillSource = .ok tokens ∧
      parse tokens = .ok p ∧ fn ∈ p.functions ∧ fn.liveness = .ok live ∧
      (Emit.function fn spills live).run Pool.scratch = ⟨code, pool, .ok frame⟩ := by
  have h : isSpilled = true := by decide +kernel
  unfold isSpilled at h
  split at h
  · cases h
  rename_i tokens hlex
  split at h
  · cases h
  rename_i p hparse
  obtain ⟨fn, hfn, h⟩ := List.any_eq_true.mp h
  split at h
  · cases h
  rename_i live hlive
  rcases hlower : (Emit.function fn spills live).run Pool.scratch with ⟨code, pool, e | frame⟩
  · rw [hlower] at h
    cases h
  · exact ⟨tokens, p, fn, live, code, pool, frame, hlex, hparse, hfn, hlive, hlower⟩

end Sample

theorem lines_legal_sample :
    ∃ tokens p fn live code pool frame, lex "sample" Sample.spillSource = .ok tokens ∧
      parse tokens = .ok p ∧ fn ∈ p.functions ∧ fn.liveness = .ok live ∧
      (Emit.function fn Sample.spills live).run Pool.scratch = ⟨code, pool, .ok frame⟩ ∧
      ∃ body, code = .header fn.name frame :: body ∧ (∀ l ∈ body, Legal fn l l.render) ∧
        ∀ l ∈ body, ∀ v ∈ l.operands, ∀ x, fn.Mentions x → v.render ≠ x := by
  obtain ⟨tokens, p, fn, live, code, pool, frame, hlex, hparse, hfn, hlive, hlower⟩ :=
    Sample.exists_spilled
  have hm : Allocation.ofPlaces [] [("x", 0), ("E", 1)] = .ok Sample.spills := rfl
  obtain ⟨body, hcode, hlegal, -, hnames⟩ := lines_legal hm hlower
  refine ⟨tokens, p, fn, live, code, pool, frame, hlex, hparse, hfn, hlive, hlower, body, hcode,
    hlegal, fun l hl v hv x hx => ?_⟩
  exact (hnames "sample" Sample.spillSource tokens p hlex hparse hfn l hl v hv).1 x (.inr hx)

end Vapor
