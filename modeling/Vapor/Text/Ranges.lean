/-
Vapor/Text/Ranges.lean

Sets of code points given as closed ranges, the form in which the tables of
character classes are written.
-/

namespace Vapor.Text

/-- A set of code points: each pair stands for all the code points from its
first to its second component, both included. -/
abbrev Ranges := List (Nat × Nat)

/-- Does the code point lie in one of the ranges? -/
def Ranges.contains (ranges : Ranges) (n : Nat) : Bool :=
  ranges.any fun r => r.1 <= n && n <= r.2

end Vapor.Text
