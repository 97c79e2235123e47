/-
Vapor/Data/Sorted.lean

Sorting by insertion.  An element goes before those it is less than or equal
to, and a list is sorted from its end, so that equal elements stay in order.

The program is built on the core library alone, whose `List.mergeSort` does not
reduce in proofs.  This sort does, and it is Mathlib's `List.insertionSort`
(`Sorted.sort_eq`), whose lemmas are used for it.
-/

namespace Vapor.Sorted

variable {α : Type}

/-- Puts an element before the first one that it is less than or equal to. -/
def insert (le : α → α → Bool) (x : α) : List α → List α
  | [] => [x]
  | y :: ys => if le x y then x :: y :: ys else y :: insert le x ys

/-- Sorts a list. -/
def sort (le : α → α → Bool) : List α → List α
  | [] => []
  | x :: xs => insert le x (sort le xs)

end Vapor.Sorted
