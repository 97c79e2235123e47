/-
Vapor/Proofs/Emission/Independence.lean

Functions are compiled independently of one another.  All functions of a program are written
on one sheet, with one allocator, but a program is compiled function by function,

    a.compile unit p = (p.functions.mapM a.code).map (programText unit p.segments),

so nothing passes from one function to the next.  Main result (`compile_independent`): a program
is compiled if and only if each of its functions is compiled alone, its text is put together from
theirs, and the first function with an error decides on the error.
-/
import Vapor.Proofs.Emission.Levels

namespace Vapor

open Text Machine

variable {α : Type}

/-! ### One after another -/

theorem exists_of_mapM_eq_ok {β γ ε : Type} {f : β → Except ε γ} {xs : List β} {ys : List γ}
    (h : xs.mapM f = .ok ys) : ∀ x ∈ xs, ∃ y, f x = .ok y := by
  have hall := mapM_eq_ok.mp h
  clear h
  induction hall with
  | nil => simp
  | @cons x y xs ys hxy _ ih => exact List.forall_mem_cons.mpr ⟨⟨y, hxy⟩, ih⟩

/-- Going through a list stops at the first element that has no result. -/
theorem mapM_eq_error {β γ ε : Type} {f : β → Except ε γ} {xs : List β} {e : ε} :
    xs.mapM f = .error e ↔ ∃ before x after, xs = before ++ x :: after ∧
      (∀ y ∈ before, ∃ c, f y = .ok c) ∧ f x = .error e := by
  induction xs with
  | nil =>
    constructor
    · intro h
      cases h
    · rintro ⟨before, x, after, h, -⟩
      simp at h
  | cons x xs ih =>
    rw [List.mapM_cons]
    cases hx : f x with
    | error e' =>
      constructor
      · intro h
        obtain rfl : e' = e := Except.error.inj h
        exact ⟨[], x, xs, rfl, by simp, hx⟩
      · rintro ⟨before, y, after, hsplit, hbefore, hy⟩
        cases before with
        | nil =>
          obtain ⟨rfl, -⟩ := List.cons.inj hsplit
          obtain rfl : e' = e := Except.error.inj (hx.symm.trans hy)
          rfl
        | cons z before =>
          -- the first element would have a result
          obtain ⟨rfl, -⟩ := List.cons.inj hsplit
          obtain ⟨c, hc⟩ := hbefore x List.mem_cons_self
          exact nomatch hx.symm.trans hc
    | ok c =>
      have hrest : (Except.ok c >>= fun c => xs.mapM f >>= fun cs => pure (c :: cs)) = .error e ↔
          xs.mapM f = .error e := by
        cases xs.mapM f <;> simp [bind, Except.bind, pure, Except.pure]
      rw [hrest, ih]
      constructor
      · rintro ⟨before, y, after, rfl, hbefore, hy⟩
        exact ⟨x :: before, y, after, rfl, List.forall_mem_cons.mpr ⟨⟨c, hx⟩, hbefore⟩, hy⟩
      · rintro ⟨before, y, after, hsplit, hbefore, hy⟩
        cases before with
        | nil =>
          obtain ⟨rfl, -⟩ := List.cons.inj hsplit
          exact nomatch hx.symm.trans hy
        | cons z before =>
          obtain ⟨-, rfl⟩ := List.cons.inj hsplit
          exact ⟨before, y, after, rfl, (List.forall_mem_cons.mp hbefore).2, hy⟩

/-! ### Parts of a program -/

/-- The program that has only this function. -/
def Program.only (p : Program α) (fn : Function α) : Program α :=
  ⟨[], [fn], p.note⟩

/-- The program that has only the segments. -/
def Program.data (p : Program α) : Program α :=
  ⟨p.segments, [], p.note⟩

/-- Texts with blank lines between them. -/
theorem join_intercalate (texts : List (List String)) :
    String.join (([""].intercalate texts).map (· ++ "\n"))
      = "\n".intercalate (texts.map fun lines => String.join (lines.map (· ++ "\n"))) := by
  induction texts with
  | nil => rfl
  | cons lines texts ih =>
    cases texts with
    | nil => simp
    | cons lines' texts =>
      rw [List.map_cons] at ih
      rw [List.intercalate_cons_cons, List.map_cons, List.map_cons, String.intercalate_cons_cons,
        ← ih]
      simp [String.join_append, String.append_assoc]

/-- The text of a program is put together from those of its parts. -/
theorem programText_eq (unit : String) (segments : List (Segment α)) (codes : List (List Line)) :
    programText unit segments codes = programText unit segments [] ++
      "\n".intercalate (codes.map fun code => programText unit ([] : List (Segment α)) [code]) := by
  simp [programText, programLines, String.join_append, join_intercalate, Function.comp_def]

namespace Allocator

variable {a : Allocator} {unit : String} {p : Program α} {fn : Function α}

theorem compile_only (a : Allocator) (unit : String) (p : Program α) (fn : Function α) :
    a.compile unit (p.only fn)
      = (a.code fn).map fun code => programText unit ([] : List (Segment α)) [code] := by
  rw [compile_eq]
  show (([fn].mapM a.code).map (programText unit _) : Except (CompileError α) String) = _
  rw [List.mapM_cons]
  cases a.code fn <;> rfl

theorem exists_compile_only :
    (∃ text, a.compile unit (p.only fn) = .ok text) ↔ ∃ code, a.code fn = .ok code := by
  rw [compile_only]
  cases a.code fn <;> simp [Except.map]

theorem compile_only_eq_error {e : CompileError α} :
    a.compile unit (p.only fn) = .error e ↔ a.code fn = .error e := by
  rw [compile_only]
  cases a.code fn <;> simp [Except.map]

/-- The lines behind the texts of the functions. -/
theorem exists_codes {fns : List (Function α)} {texts : List String}
    (h : List.Forall₂ (fun fn text => a.compile unit (p.only fn) = .ok text) fns texts) :
    ∃ codes, fns.mapM a.code = .ok codes ∧
      texts = codes.map fun code => programText unit ([] : List (Segment α)) [code] := by
  induction h with
  | nil => exact ⟨[], rfl, rfl⟩
  | @cons fn text fns texts hfn _ ih =>
    obtain ⟨codes, hcodes, rfl⟩ := ih
    rw [compile_only] at hfn
    cases hcode : a.code fn with
    | error e =>
      rw [hcode] at hfn
      cases hfn
    | ok code =>
      rw [hcode] at hfn
      obtain rfl := Except.ok.inj hfn
      refine ⟨code :: codes, ?_, rfl⟩
      rw [List.mapM_cons, hcode, hcodes]
      rfl

end Allocator

/-- **Functions are compiled independently.**  With any allocator and any indentation, a program
is compiled if and only if each of its functions is compiled alone.  Its text is then that of its
segments, followed by the texts of the functions with a blank line between them; the sheet is
back at the margin, and no line on it is unfinished.  Otherwise the error is the one that the
first function with an error has alone. -/
theorem compile_independent (a : Allocator) (unit : String) (p : Program α) :
    ((∃ text, a.compile unit p = .ok text) ↔
        ∀ fn ∈ p.functions, ∃ text, a.compile unit (p.only fn) = .ok text) ∧
      (∀ texts, List.Forall₂ (fun fn text => a.compile unit (p.only fn) = .ok text)
          p.functions texts →
        ∃ data s, a.compile unit p.data = .ok data ∧ a.compile unit p = .ok s.text ∧
          s.text = data ++ "\n".intercalate texts ∧
          a.writeProgram? { unit := unit } p = some (s, .ok ()) ∧ s.level = 0 ∧ s.pending = "") ∧
      ∀ e, a.compile unit p = .error e ↔ ∃ before fn after,
        p.functions = before ++ fn :: after ∧
          (∀ g ∈ before, ∃ text, a.compile unit (p.only g) = .ok text) ∧
          a.compile unit (p.only fn) = .error e := by
  refine ⟨⟨?_, ?_⟩, ?_, ?_⟩
  · rintro ⟨text, htext⟩ fn hfn
    rw [Allocator.compile_eq] at htext
    cases hcodes : p.functions.mapM a.code with
    | error e =>
      rw [hcodes] at htext
      cases htext
    | ok codes => exact Allocator.exists_compile_only.mpr (exists_of_mapM_eq_ok hcodes fn hfn)
  · intro hall
    have hcode : ∀ fn ∈ p.functions, ∃ code, a.code fn = .ok code :=
      fun fn hfn => Allocator.exists_compile_only.mp (hall fn hfn)
    obtain ⟨codes, hcodes⟩ := exists_mapM_eq_ok hcode
    exact ⟨_, by rw [Allocator.compile_eq, hcodes]; rfl⟩
  · intro texts htexts
    obtain ⟨codes, hcodes, rfl⟩ := Allocator.exists_codes htexts
    have hdata : a.compile unit p.data = .ok (programText unit p.segments []) := by
      rw [Allocator.compile_eq]
      rfl
    have hsheet := Allocator.writeProgram_of_ok hcodes unit
    have htext := Allocator.text_programLines unit p.segments codes
    refine ⟨_, _, hdata, ?_, htext.trans (programText_eq unit p.segments codes), ?_, rfl, rfl⟩
    · rw [Allocator.compile_eq, hcodes, htext]
      rfl
    · rw [Allocator.writeProgram?_eq, hsheet]
  · intro e
    have herror : a.compile unit p = .error e ↔ p.functions.mapM a.code = .error e := by
      rw [Allocator.compile_eq]
      cases p.functions.mapM a.code <;> simp [Except.map]
    simp only [herror, mapM_eq_error, Allocator.exists_compile_only,
      Allocator.compile_only_eq_error]

end Vapor
