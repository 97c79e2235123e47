/-
Vapor/Proofs/Sorting.lean

The functions that the program sorts with are `List.orderedInsert` and `List.insertionSort`
(`insert_eq`, `sort_eq`), for any relation that says the same as the order of the program, so that
what is known of those holds of them.

Here almost everything is sorted by a key.  Then the result does not depend on the order in which
the elements come, as long as different ones have different keys (`sort_eq_of_perm`).
-/
import Mathlib.Data.List.Sort
import Vapor.Data.Sorted

namespace Vapor.Sorted

variable {α : Type} {le : α → α → Bool}

section Relation

variable {r : α → α → Prop} [DecidableRel r]

theorem insert_eq (hle : ∀ a b, le a b = true ↔ r a b) (x : α) (xs : List α) :
    insert le x xs = xs.orderedInsert r x := by
  induction xs with
  | nil => rfl
  | cons y ys ih => simp only [insert, List.orderedInsert_cons, hle, ih]

/-- **The program sorts by insertion.** -/
theorem sort_eq (hle : ∀ a b, le a b = true ↔ r a b) (xs : List α) :
    sort le xs = xs.insertionSort r := by
  induction xs with
  | nil => rfl
  | cons x xs ih => rw [sort, ih, insert_eq hle, List.insertionSort_cons]

end Relation

/-- **Sorting forgets the order**, if no two elements share a key. -/
theorem sort_eq_of_perm {κ : Type} [LinearOrder κ] {key : α → κ}
    (hle : ∀ a b, le a b = true ↔ Order.Preimage key (· ≤ ·) a b) {xs ys : List α}
    (hkey : ∀ a ∈ ys, ∀ b ∈ ys, key a = key b → a = b)
    (hsorted : ys.Pairwise (Order.Preimage key (· ≤ ·))) (h : xs.Perm ys) : sort le xs = ys := by
  rw [sort_eq hle]
  have hperm : (xs.insertionSort (Order.Preimage key (· ≤ ·))).Perm ys :=
    (List.perm_insertionSort _ xs).trans h
  -- both lists are sorted, and an element is known by its key among them
  refine hperm.eq_of_pairwise ?_ (List.pairwise_insertionSort _ xs) hsorted
  intro a b ha hb hab hba
  exact hkey a (hperm.mem_iff.mp ha) b hb (le_antisymm hab hba)

end Vapor.Sorted
