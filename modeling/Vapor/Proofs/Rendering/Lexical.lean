/-
Vapor/Proofs/Rendering/Lexical.lean

Programs whose names are identifiers and whose strings have their quotes
(`Program.Lexical`).  Nothing is asked of variables, which are not written.  Every program
that is read from a text is of this kind (`lexical_of_parse`).  The lines of its functions
have the same names and strings (`Allocator.Compiles.proper`), so that each of them is
determined by the way it is written.
-/
import Vapor.Proofs.Emission.Layout
import Vapor.Proofs.Emission.Text
import Vapor.Proofs.Printing.Writable
import Vapor.Proofs.Rendering.Lines

namespace Vapor

open Machine

variable {α : Type}

/-! ### Programs with proper names and strings -/

def Operand.Lexical : Operand α → Prop
  | .text lexeme _ => IsText lexeme
  | .label l => IsName l.name
  | _ => True

def Callee.Lexical : Callee α → Prop
  | .label l => IsName l.name
  | _ => True

def Instr.Lexical : Instr α → Prop
  | .assign _ o _ => o.Lexical
  | .call _ callee args _ => callee.Lexical ∧ ∀ o ∈ args, o.Lexical
  | .apply _ op args _ => IsName op ∧ ∀ o ∈ args, o.Lexical
  | .store _ o _ => o.Lexical
  | .load _ _ _ => True
  | .branch o _ l _ => o.Lexical ∧ IsName l.name
  | .goto l _ => IsName l.name
  | .ret value _ => ∀ o ∈ value, o.Lexical

def Datum.Lexical : Datum α → Prop
  | .label l => IsName l.name
  | _ => True

structure Segment.Lexical (s : Segment α) : Prop where
  name : IsName s.name
  values : ∀ d ∈ s.values, d.Lexical

structure Function.Lexical (f : Function α) : Prop where
  name : IsName f.name
  body : ∀ i ∈ f.body, i.Lexical
  labels : ∀ l ∈ f.labels, IsName l.name

/-- The names in the program are identifiers and no keywords, and its strings are strings
of the source. -/
structure Program.Lexical (p : Program α) : Prop where
  segments : ∀ s ∈ p.segments, s.Lexical
  functions : ∀ f ∈ p.functions, f.Lexical

/-! ### Programs that are read -/

section Reading

variable {β : Type} {f : α → β}

theorem Operand.lexical_of_map {o : Operand α} (h : (o.map f).Writable) : o.Lexical := by
  cases o with
  | var | int => trivial
  | text | label => exact h

theorem Operand.lexical_of_map_list {os : List (Operand α)}
    (h : ∀ o ∈ os.map (Operand.map f), o.Writable) : ∀ o ∈ os, o.Lexical :=
  fun _ ho => lexical_of_map (h _ (List.mem_map_of_mem ho))

theorem Instr.lexical_of_map {i : Instr α} (h : (i.map f).Writable) : i.Lexical := by
  cases i with
  | assign | store => exact Operand.lexical_of_map h.2
  | call dest callee args note =>
    refine ⟨?_, Operand.lexical_of_map_list h.2.2⟩
    cases callee with
    | var => trivial
    | label => exact h.2.1
  | apply => exact ⟨h.2.1, Operand.lexical_of_map_list h.2.2⟩
  | load => trivial
  | branch => exact ⟨Operand.lexical_of_map h.1, h.2⟩
  | goto => exact h
  | ret value note =>
    cases value with
    | none => exact fun o ho => by cases ho
    | some o =>
      rintro _ ⟨⟩
      exact Operand.lexical_of_map (h _ rfl)

theorem Segment.lexical_of_map {s : Segment α} (h : (s.map f).Writable) : s.Lexical := by
  refine ⟨h.name, fun d hd => ?_⟩
  have hmap := h.values _ (List.mem_map_of_mem hd)
  cases d with
  | int => trivial
  | label => exact hmap

theorem Function.lexical_of_map {fn : Function α} (h : (fn.map f).Writable) : fn.Lexical where
  name := h.name
  body _ hi := Instr.lexical_of_map (h.body _ (List.mem_map_of_mem hi))
  labels _ hl := h.labels _ (List.mem_map_of_mem hl)

/-- A program that is read from a text has proper names and strings. -/
theorem lexical_of_parse {path source : String} {tokens : List Token} {p : Program Span}
    (hlex : lex path source = .ok tokens) (hparse : parse tokens = .ok p) : p.Lexical := by
  have hwritable := writable_of_parse hlex hparse
  exact ⟨fun s hs => Segment.lexical_of_map (hwritable.segments _ (List.mem_map_of_mem hs)),
    fun fn hfn => Function.lexical_of_map (hwritable.functions _ (List.mem_map_of_mem hfn))⟩

end Reading

/-! ### The lines of a function -/

namespace Emit

variable {m : Allocation} {live : Liveness} {fn : Function α} {kept : List Register}

theorem lexical_of_literal {o : Operand α} (ho : o.Lexical) {v : Value}
    (hv : literal o = .inr v) : v.Lexical := by
  cases o with
  | var ref => cases hv
  | int value note | text lexeme note | label ref =>
    obtain rfl := Sum.inr.inj hv
    exact ho

theorem lexical_of_becomes {o : Operand α} (ho : o.Lexical) {v : Value} (hv : Becomes m o v) :
    v.Lexical := by
  cases hv with
  | var => trivial
  | literal hv => exact lexical_of_literal ho hv

theorem lexical_of_forall₂ {os : List (Operand α)} (hos : ∀ o ∈ os, o.Lexical) {vs : List Value}
    (hvs : List.Forall₂ (Becomes m) os vs) : ∀ v ∈ vs, v.Lexical := by
  induction hvs with
  | nil => exact nofun
  | cons hv _ ih =>
    obtain ⟨ho, hos⟩ := List.forall_mem_cons.mp hos
    exact List.forall_mem_cons.mpr ⟨lexical_of_becomes ho hv, ih hos⟩

/-- The lines of an instruction have the names and strings of the instruction. -/
theorem Written.lexical {i : Instr α} (hi : i.Lexical) {l : Line} (h : Written m kept i l) :
    l.Lexical := by
  cases h with
  | fetch | putBack | keep | callVar | result | restore | load | unsave | ret => trivial
  | assign _ hv | store _ hv => exact lexical_of_becomes hi hv
  | @passVar _ _ _ _ _ _ l => cases l <;> trivial
  | passLiteral harg _ hv => exact lexical_of_literal (hi.2 _ (List.mem_of_getElem? harg)) hv
  | passSlot harg _ hv => exact lexical_of_becomes (hi.2 _ (List.mem_of_getElem? harg)) hv
  | callLabel => exact hi.1
  | apply hvs | applyTo _ hvs => exact ⟨hi.1, lexical_of_forall₂ hi.2 hvs⟩
  | branch hv => exact ⟨lexical_of_becomes hi.1 hv, hi.2⟩
  | goto => exact hi
  | value hv => exact lexical_of_becomes (hi _ rfl) hv

theorem Arriving.lexical {xs : List (Ref α)} {l : Line} (h : Arriving m xs l) : l.Lexical := by
  cases h <;> trivial

/-- A label that is written is one of the function. -/
theorem exists_label_of_mem (hm : m.WellFormed) {name : String}
    (h : .label name ∈ below fn m live) : ∃ l ∈ fn.labels, l.name = name := by
  obtain ⟨before, heq, hbefore⟩ := code_split hm fn live (Nat.le_refl fn.body.length)
  have hmem : .label name ∈ head fn m live ++ below fn m live := List.mem_append_right _ h
  obtain ⟨k, hk⟩ : ∃ k : Nat, name ∈ fn.labelsAt k := by
    rw [below, heq, remaining, List.drop_length, groups, List.append_nil, List.mem_append] at hmem
    rcases hmem with hmem | hmem
    · obtain ⟨k, -, hk⟩ := hbefore name hmem
      exact ⟨k, hk⟩
    · obtain ⟨name', hk, hname⟩ := List.mem_map.mp hmem
      obtain rfl := Line.label.inj hname
      exact ⟨_, hk⟩
  obtain ⟨l, hl, hname, -⟩ := Function.mem_labelsAt.mp hk
  exact ⟨l, hl, hname⟩

end Emit

/-- Lines as a function has them: a header comes first, and all names and strings are
proper. -/
structure Proper (code : List Line) : Prop where
  header : ∃ name frame rest, code = .header name frame :: rest
  lexical : ∀ l ∈ code, l.Lexical

/-- The lines of a function are proper. -/
theorem Allocator.Compiles.proper {a : Allocator} {fn : Function α} (hfn : fn.Lexical)
    {code : List Line} (h : a.Compiles fn code) : Proper code := by
  obtain ⟨live, m, pool, frame, -, hm, hgives⟩ := h
  have hwell := Allocation.wellFormed_of_ofPlaces hm
  obtain ⟨rfl, -, -, -⟩ := Emit.function_spec hwell hgives
  refine ⟨⟨_, _, _, rfl⟩, fun l hl => ?_⟩
  rw [Emit.head, Emit.prologue_lines, List.cons_append, List.mem_cons, List.mem_append,
    List.mem_append] at hl
  rcases hl with rfl | (hl | hl) | hl
  · exact hfn.name
  · obtain ⟨j, r, -, rfl⟩ := Emit.mem_saveLines.mp hl
    trivial
  · exact (Emit.arriving_of_mem_arrivals hl).lexical
  · rcases Emit.mem_below hl with ⟨name, rfl⟩ | ⟨index, i, hi, hmem⟩
    · obtain ⟨label, hlabel, rfl⟩ := Emit.exists_label_of_mem hwell hl
      exact hfn.labels label hlabel
    · exact (Emit.written_of_mem_group hwell hmem).lexical (hfn.body i (List.mem_of_getElem? hi))

theorem proper_of_compiles {a : Allocator} {fns : List (Function α)} (hfns : ∀ f ∈ fns, f.Lexical)
    {codes : List (List Line)} (h : List.Forall₂ a.Compiles fns codes) :
    ∀ code ∈ codes, Proper code := by
  induction h with
  | nil => exact List.forall_mem_nil _
  | cons hcode _ ih =>
    obtain ⟨hfn, hfns⟩ := List.forall_mem_cons.mp hfns
    exact List.forall_mem_cons.mpr ⟨hcode.proper hfn, ih hfns⟩

end Vapor
