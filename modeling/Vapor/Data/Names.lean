/-
Vapor/Data/Names.lean

Finite sets of names, kept as strictly increasing lists in the order of code
points.  Two such lists with the same members are the same list
(`Names.Sorted.ext`), so sets can be compared and shown as they are.
-/

namespace Vapor

/-- A set of names, in increasing order. -/
abbrev Names := List String

namespace Names

/-- Adds a name. -/
def insert (x : String) : Names → Names
  | [] => [x]
  | y :: ys =>
    if x < y then x :: y :: ys
    else if x = y then y :: ys
    else y :: insert x ys

/-- The union of a list of names with a set. -/
def union (xs : List String) (ys : Names) : Names :=
  xs.foldr insert ys

/-- The set of the members of a list. -/
def ofList (xs : List String) : Names :=
  union xs []

/-- The members of the first set that do not belong to the second. -/
def diff (xs ys : Names) : Names :=
  xs.filter fun x => x ∉ ys

/-! ### Members -/

@[simp] theorem mem_insert {a x : String} {ys : Names} : a ∈ insert x ys ↔ a = x ∨ a ∈ ys := by
  induction ys with
  | nil => simp [insert]
  | cons y ys ih =>
    rw [insert]
    split
    · simp
    · split
      · rename_i h
        simp [h]
      · simp only [List.mem_cons, ih]
        exact or_left_comm

@[simp] theorem mem_union {a : String} {xs : List String} {ys : Names} :
    a ∈ union xs ys ↔ a ∈ xs ∨ a ∈ ys := by
  induction xs with
  | nil => simp [union]
  | cons x xs ih =>
    show a ∈ insert x (union xs ys) ↔ _
    simp [ih, or_assoc]

@[simp] theorem mem_ofList {a : String} {xs : List String} : a ∈ ofList xs ↔ a ∈ xs := by
  simp [ofList]

@[simp] theorem mem_diff {a : String} {xs ys : Names} : a ∈ diff xs ys ↔ a ∈ xs ∧ a ∉ ys := by
  simp [diff]

/-! ### Order -/

/-- Strictly increasing, so without repetitions. -/
abbrev Sorted (xs : Names) : Prop :=
  xs.Pairwise (· < ·)

theorem Sorted.insert {x : String} {ys : Names} (h : Sorted ys) : Sorted (insert x ys) := by
  induction ys with
  | nil => simp [Names.insert, Sorted]
  | cons y ys ih =>
    have hy := List.pairwise_cons.mp h
    rw [Names.insert]
    split
    · rename_i hxy
      refine List.pairwise_cons.mpr ⟨fun b hb => ?_, h⟩
      rcases List.mem_cons.mp hb with rfl | hb
      · exact hxy
      · exact String.lt_trans hxy (hy.1 b hb)
    · split
      · exact h
      · rename_i hxy hne
        refine List.pairwise_cons.mpr ⟨fun b hb => ?_, ih hy.2⟩
        rcases mem_insert.mp hb with rfl | hb
        · exact Decidable.byContradiction fun hn =>
            hne (String.le_antisymm (String.not_lt.mp hn) (String.not_lt.mp hxy))
        · exact hy.1 b hb

theorem Sorted.union {xs : List String} {ys : Names} (h : Sorted ys) : Sorted (union xs ys) := by
  induction xs with
  | nil => exact h
  | cons x xs ih => exact ih.insert

theorem sorted_ofList (xs : List String) : Sorted (ofList xs) :=
  Sorted.union .nil

theorem Sorted.diff {xs ys : Names} (h : Sorted xs) : Sorted (diff xs ys) :=
  h.filter _

theorem Sorted.nodup {xs : Names} (h : Sorted xs) : xs.Nodup := by
  refine List.Pairwise.imp ?_ h
  rintro a _ hlt rfl
  exact String.lt_irrefl a hlt

/-- A set is determined by its members. -/
theorem Sorted.ext {xs ys : Names} (hx : Sorted xs) (hy : Sorted ys)
    (h : ∀ a, a ∈ xs ↔ a ∈ ys) : xs = ys := by
  induction xs generalizing ys with
  | nil =>
    cases ys with
    | nil => rfl
    | cons y ys => exact absurd ((h y).mpr (List.mem_cons_self ..)) (by simp)
  | cons x xs ih =>
    cases ys with
    | nil => exact absurd ((h x).mp (List.mem_cons_self ..)) (by simp)
    | cons y ys =>
      have hx' := List.pairwise_cons.mp hx
      have hy' := List.pairwise_cons.mp hy
      have hxy : x = y := by
        rcases List.mem_cons.mp ((h x).mp (List.mem_cons_self ..)) with e | hxm
        · exact e
        · rcases List.mem_cons.mp ((h y).mpr (List.mem_cons_self ..)) with e | hym
          · exact e.symm
          · exact absurd (String.lt_trans (hy'.1 x hxm) (hx'.1 y hym)) (String.lt_irrefl _)
      subst hxy
      refine congrArg (x :: ·) (ih hx'.2 hy'.2 fun a => ?_)
      have ha := h a
      simp only [List.mem_cons] at ha
      constructor
      · intro m
        exact (ha.mp (.inr m)).resolve_left fun e => String.lt_irrefl _ (e ▸ hx'.1 a m)
      · intro m
        exact (ha.mpr (.inr m)).resolve_left fun e => String.lt_irrefl _ (e ▸ hy'.1 a m)

end Names

end Vapor
