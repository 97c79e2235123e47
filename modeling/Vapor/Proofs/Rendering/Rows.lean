/-
Vapor/Proofs/Rendering/Rows.lean

The rows of a text.  A line fills one row, unless the indentation has line feeds in it:
then rows of the indentation stand before the one that ends with the line (`Margin`).

That last row tells the line (`Margin.lastRow_injective`).  Where it ends in a colon there
is a label, where it ends in a bracket with no equality sign before it there is a header,
and an empty row is a blank between two functions.  Everything else is indented.  So lines
can be taken from the end of a text one after the other (`Margin.exists_items_suffix`).
-/
import Mathlib.Data.List.Induction
import Vapor.Proofs.Rendering.Lines

namespace Vapor

open Machine

/-! ### Rows -/

/-- The text of some rows. -/
def ofRows (rows : List (List Char)) : List Char :=
  rows.flatMap (· ++ ['\n'])

@[simp] theorem ofRows_nil : ofRows [] = [] := rfl

@[simp] theorem ofRows_cons (row : List Char) (rows : List (List Char)) :
    ofRows (row :: rows) = row ++ '\n' :: ofRows rows := by
  simp [ofRows]

@[simp] theorem ofRows_append (xs ys : List (List Char)) :
    ofRows (xs ++ ys) = ofRows xs ++ ofRows ys := by
  simp [ofRows]

/-- The text determines its rows. -/
theorem ofRows_injective {xs ys : List (List Char)} (hxs : ∀ x ∈ xs, '\n' ∉ x)
    (hys : ∀ y ∈ ys, '\n' ∉ y) (h : ofRows xs = ofRows ys) : xs = ys := by
  have hfirst : ∀ {row rest : List Char}, '\n' ∉ row →
      (row ++ '\n' :: rest).takeWhile (· != '\n') = row := by
    intro row rest hrow
    refine takeWhile_append_eq_iff.mpr ⟨fun c hc => ?_, ?_⟩
    · exact bne_iff_ne.mpr (ne_of_mem_of_not_mem hc hrow)
    · rintro _ ⟨⟩
      decide
  induction xs generalizing ys with
  | nil =>
    cases ys with
    | nil => rfl
    | cons y ys => simp at h
  | cons x xs ih =>
    cases ys with
    | nil => simp at h
    | cons y ys =>
      obtain ⟨hx, hxs⟩ := List.forall_mem_cons.mp hxs
      replace hys := List.forall_mem_cons.mp hys
      rw [ofRows_cons, ofRows_cons] at h
      obtain rfl : x = y := by rw [← hfirst hx, h, hfirst hys.1]
      rw [ih hxs hys.2 (List.cons.inj (List.append_cancel_left h)).2]

/-- An indentation as it stands in a text: the rows that it fills, and how the next one
begins. -/
structure Margin where
  rows : List (List Char)
  start : List Char
  rows_flat : ∀ row ∈ rows, '\n' ∉ row
  start_flat : '\n' ∉ start

namespace Margin

def chars (m : Margin) : List Char :=
  ofRows m.rows ++ m.start

/-- Any text can be an indentation. -/
theorem exists_chars (cs : List Char) : ∃ m : Margin, m.chars = cs := by
  induction cs with
  | nil => exact ⟨⟨[], [], nofun, nofun⟩, rfl⟩
  | cons c cs ih =>
    obtain ⟨⟨rows, start, hrows, hstart⟩, rfl⟩ := ih
    by_cases hc : c = '\n'
    · exact ⟨⟨[] :: rows, start, List.forall_mem_cons.mpr ⟨nofun, hrows⟩, hstart⟩,
        by simp [chars, hc]⟩
    · have hcons : ∀ {row : List Char}, '\n' ∉ row → '\n' ∉ c :: row := by
        intro row hrow
        simp [hrow, Ne.symm hc]
      cases rows with
      | nil => exact ⟨⟨[], c :: start, nofun, hcons hstart⟩, rfl⟩
      | cons row rows =>
        obtain ⟨hrow, hrows⟩ := List.forall_mem_cons.mp hrows
        exact ⟨⟨(c :: row) :: rows, start, List.forall_mem_cons.mpr ⟨hcons hrow, hrows⟩,
          hstart⟩, by simp [chars]⟩

/-- The rows of an indented line. -/
def indent (m : Margin) (cs : List Char) : List (List Char) :=
  m.rows ++ [m.start ++ cs]

theorem ofRows_indent (m : Margin) (cs : List Char) :
    ofRows (m.indent cs) = m.chars ++ cs ++ ['\n'] := by
  simp [indent, chars]

end Margin

/-! ### How rows end -/

/-- What a row may be the last one of. -/
inductive RowKind where
  | blank
  | header
  | label
  /-- A line of any other kind, which is indented. -/
  | inner

def rowKind (row : List Char) : RowKind :=
  match row.getLast? with
  | none => .blank
  | some c =>
    if c = ':' then .label
    else if c = ']' ∧ '=' ∉ row then .header
    else .inner

theorem rowKind_eq_inner_iff {row : List Char} : rowKind row = .inner ↔
    ∃ c, row.getLast? = some c ∧ c ≠ ':' ∧ (c = ']' → '=' ∈ row) := by
  unfold rowKind
  cases hlast : row.getLast? with
  | none => simp
  | some c =>
    by_cases hcolon : c = ':'
    · simp [hcolon]
    · simp [hcolon]

/-- Anything may stand before. -/
theorem rowKind_append (before : List Char) {row : List Char} (h : rowKind row = .inner) :
    rowKind (before ++ row) = .inner := by
  obtain ⟨c, hlast, hcolon, hbracket⟩ := rowKind_eq_inner_iff.mp h
  refine rowKind_eq_inner_iff.mpr ⟨c, ?_, hcolon, fun hc => ?_⟩
  · simp [List.getLast?_append, hlast]
  · exact List.mem_append_right _ (hbracket hc)

theorem rowKind_word {w : List Char} (hw : IsWord w) : rowKind w = .inner := by
  have hlast := hw.2 _ (List.getLast_mem hw.1)
  refine rowKind_eq_inner_iff.mpr ⟨_, List.getLast?_eq_some_getLast hw.1, ?_, ?_⟩
  · intro hc
    rw [hc] at hlast
    exact absurd hlast (by decide)
  · intro hc
    rw [hc] at hlast
    exact absurd hlast (by decide)

theorem rowKind_string {cs : List Char} (h : StringTail cs) : rowKind cs = .inner := by
  induction h with
  | close => rfl
  | @escape c cs _ _ ih => exact rowKind_append ['\\', c] ih
  | @plain c cs _ _ ih => exact rowKind_append [c] ih

namespace Machine

theorem rowKind_register (r : Register) : rowKind r.name.toList = .inner := by
  rw [toList_name]
  exact rowKind_append ['$'] (rowKind_word (register_word r))

theorem rowKind_labelText {name : String} (h : IsName name) :
    rowKind (labelText name).toList = .inner := by
  show rowKind (":" ++ name).toList = _
  rw [String.toList_append]
  exact rowKind_append _ (rowKind_word h.word)

theorem rowKind_value {v : Value} (hv : v.Lexical) : rowKind v.render.toList = .inner := by
  cases v with
  | register r => exact rowKind_register r
  | int n =>
    show rowKind (toString n).toList = _
    rw [Text.toList_toString]
    split
    · exact rowKind_word (digits_word _)
    · exact rowKind_append ['-'] (rowKind_word (digits_word _))
  | label name => exact rowKind_labelText hv
  | text lexeme =>
    obtain ⟨cs, hcs, htail⟩ := IsText.quote hv
    show rowKind lexeme.toList = _
    rw [hcs]
    exact rowKind_append ['"'] (rowKind_string htail)

theorem rowKind_application (op : String) (args : List String) :
    rowKind (application op args).toList = .inner := by
  unfold application
  rw [String.toList_append]
  exact rowKind_append _ rfl

theorem rowKind_target {t : Target} (ht : t.Lexical) : rowKind t.render.toList = .inner := by
  cases t with
  | register r => exact rowKind_register r
  | label name => exact rowKind_labelText ht

/-- A slot or a place in memory ends in a bracket, but behind an equality sign. -/
theorem rowKind_assignment (dest : Dest) {source : Source} (hsource : source.Lexical) :
    rowKind (assignment dest.render source.render).toList = .inner := by
  have hinner : rowKind source.render.toList = .inner →
      rowKind (assignment dest.render source.render).toList = .inner := by
    intro h
    unfold assignment
    rw [String.toList_append]
    exact rowKind_append _ h
  have hbracket : ∀ text, source.render = text ++ "]" →
      rowKind (assignment dest.render source.render).toList = .inner := by
    intro text h
    unfold assignment
    rw [h, ← String.append_assoc, String.toList_append]
    refine rowKind_eq_inner_iff.mpr ⟨']', List.getLast?_concat .., by decide, fun _ => ?_⟩
    simp
  cases source with
  | value v => exact hinner (rowKind_value hsource)
  | localSlot offset => exact hbracket ("local[" ++ toString (offset : Int)) rfl
  | inSlot offset => exact hbracket ("in[" ++ toString (offset : Int)) rfl
  | memory base offset =>
    obtain ⟨text, htext⟩ : ∃ text, memory base offset = text ++ "]" := by
      unfold memory
      split
      · exact ⟨_, rfl⟩
      · split <;> exact ⟨_, rfl⟩
    exact hbracket text htext
  | apply op args => exact hinner (rowKind_application _ _)

/-- What the last row of a line is. -/
def Line.rowKind : Line → RowKind
  | header .. => .header
  | label _ => .label
  | _ => .inner

theorem rowKind_render {l : Line} (hl : l.Lexical) : Vapor.rowKind l.render.toList = l.rowKind := by
  cases l with
  | header name frame =>
    have hname : '=' ∉ name.toList := fun h => absurd (hl.word.2 _ h) (by decide)
    have hdigits : ∀ n : Nat, '=' ∉ Nat.toDigits 10 n :=
      fun n h => absurd ((digits_word n).2 _ h) (by decide)
    show Vapor.rowKind ("func " ++ name ++ " [in " ++ toString (frame.ins : Int) ++ ", out " ++
      toString (frame.outs : Int) ++ ", local " ++ toString (frame.locals : Int) ++ "]").toList = _
    rw [String.toList_append, Vapor.rowKind, show "]".toList = [']'] from rfl,
      List.getLast?_concat]
    simp [Line.rowKind, hname, hdigits]
  | label name =>
    show Vapor.rowKind (name ++ ":").toList = _
    simp [Vapor.rowKind, Line.rowKind]
  | assign dest source => exact rowKind_assignment dest hl
  | apply op args => exact rowKind_application _ _
  | call target =>
    show Vapor.rowKind ("call " ++ target.render).toList = _
    rw [String.toList_append]
    exact rowKind_append _ (rowKind_target hl)
  | branch positive test target =>
    show Vapor.rowKind (branchLine positive test.render (labelText target)).toList = _
    unfold branchLine
    rw [String.toList_append]
    exact rowKind_append _ (rowKind_labelText hl.2)
  | goto target =>
    show Vapor.rowKind ("goto " ++ labelText target).toList = _
    rw [String.toList_append]
    exact rowKind_append _ (rowKind_labelText hl)
  | ret => rfl

theorem Line.rowKind_eq_inner_iff {l : Line} : l.rowKind = .inner ↔ l.depth ≠ 0 := by
  cases l <;> simp [Line.rowKind, depth]

end Machine

/-! ### Lines and blanks -/

namespace Margin

variable (m : Margin)

/-- How the last row of a line begins. -/
def before (l : Line) : List Char :=
  if l.depth = 0 then [] else m.start

/-- The last row of a line, or a blank one between two functions. -/
def lastRow : Option Line → List Char
  | none => []
  | some l => m.before l ++ l.render.toList

/-- The rows before the last one. -/
def above : Option Line → List (List Char)
  | none => []
  | some l => if l.depth = 0 then [] else m.rows

/-- All rows. -/
def itemRows (i : Option Line) : List (List Char) :=
  m.above i ++ [m.lastRow i]

/-- What the last row is. -/
def itemKind : Option Line → RowKind
  | none => .blank
  | some l => l.rowKind

variable {m}

theorem rowKind_lastRow {i : Option Line} (hi : ∀ l ∈ i, l.Lexical) :
    rowKind (m.lastRow i) = itemKind i := by
  cases i with
  | none => rfl
  | some l =>
    have hl := rowKind_render (hi l rfl)
    by_cases hdepth : l.depth = 0
    · simpa [lastRow, before, itemKind, hdepth] using hl
    · have hinner := Line.rowKind_eq_inner_iff.mpr hdepth
      show rowKind (m.before l ++ l.render.toList) = l.rowKind
      rw [hinner] at hl ⊢
      exact rowKind_append _ hl

/-- **A line is determined by its last row.** -/
theorem lastRow_injective {i j : Option Line} (hi : ∀ l ∈ i, l.Lexical) (hj : ∀ l ∈ j, l.Lexical)
    (h : m.lastRow i = m.lastRow j) : i = j := by
  have hkind : itemKind i = itemKind j := by rw [← rowKind_lastRow hi, h, rowKind_lastRow hj]
  cases i with
  | none =>
    cases j with
    | none => rfl
    | some l' => cases l' <;> cases hkind
  | some l =>
    cases j with
    | none => cases l <;> cases hkind
    | some l' =>
      have hbefore : m.before l = m.before l' := by
        have hdepth : l.depth = 0 ↔ l'.depth = 0 := by
          rw [← not_iff_not]
          show l.depth ≠ 0 ↔ l'.depth ≠ 0
          rw [← Line.rowKind_eq_inner_iff, ← Line.rowKind_eq_inner_iff]
          exact Eq.congr_left hkind
        simp only [before, hdepth]
      simp only [lastRow, hbefore, List.append_cancel_left_eq, String.toList_inj] at h
      rw [Line.render_injective (hi l rfl) (hj l' rfl) h]

/-- Lines are taken from the end of a text one after the other, so of two texts that agree
the lines of one are the last ones of the other. -/
theorem exists_items_suffix {xs ys : List (List Char)} {is js : List (Option Line)}
    (his : ∀ l, some l ∈ is → l.Lexical) (hjs : ∀ l, some l ∈ js → l.Lexical)
    (h : xs ++ is.flatMap m.itemRows = ys ++ js.flatMap m.itemRows) :
    (∃ ks, js = ks ++ is ∧ xs = ys ++ ks.flatMap m.itemRows) ∨
      ∃ ks, is = ks ++ js ∧ ys = xs ++ ks.flatMap m.itemRows := by
  induction is using List.reverseRecOn generalizing js with
  | nil => exact .inl ⟨js, by simp, by simpa using h⟩
  | append_singleton is i ih =>
    cases js using List.reverseRecOn with
    | nil => exact .inr ⟨is ++ [i], by simp, by simpa using h.symm⟩
    | append_singleton js j =>
      simp only [List.flatMap_append, List.flatMap_singleton, itemRows, ← List.append_assoc] at h
      obtain ⟨habove, hlast⟩ := List.append_inj' h rfl
      obtain rfl : i = j := by
        refine lastRow_injective (m := m) ?_ ?_ (List.singleton_inj.mp hlast)
        · rintro l rfl
          exact his l (by simp)
        · rintro l rfl
          exact hjs l (by simp)
      have hrest := List.append_cancel_right habove
      refine (ih ?_ ?_ hrest).imp ?_ ?_
      · exact fun l hl => his l (List.mem_append_left _ hl)
      · exact fun l hl => hjs l (List.mem_append_left _ hl)
      · rintro ⟨ks, rfl, hks⟩
        exact ⟨ks, by simp, hks⟩
      · rintro ⟨ks, rfl, hks⟩
        exact ⟨ks, by simp, hks⟩

end Margin

end Vapor
