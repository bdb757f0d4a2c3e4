/-!
# Ranges of code points

A set of characters given by the ranges of its code points, in increasing order.
-/

namespace SymbolicSolver.Text

/-- Whether a code point lies in one of the ranges. -/
def inRanges (n : Nat) : List (Nat × Nat) → Bool
  | [] => false
  | (first, last) :: rest => if n < first then false else n ≤ last || inRanges n rest

end SymbolicSolver.Text
