import SymbolicSolver.Expr.Printer

/-!
# Pieces of printed texts

How the sign of a whole number, a row of factors and the order of terms are written.
-/

namespace SymbolicSolver.Expr

theorem toString_of_nonneg {n : Int} (h : 0 ≤ n) : toString n = toString n.natAbs := by
  cases n with
  | ofNat n => rfl
  | negSucc n => omega

theorem toString_of_neg {n : Int} (h : n < 0) : toString n = "-" ++ toString n.natAbs := by
  cases n with
  | ofNat n => exact absurd h (Int.not_lt.2 (Int.natCast_nonneg n))
  | negSucc n => rfl

/-- The first two texts of a row may be joined beforehand. -/
theorem intercalate_cons_cons (s t : String) (ss : List String) :
    String.intercalate "*" (s :: t :: ss) = String.intercalate "*" ((s ++ "*" ++ t) :: ss) := by
  rw [String.intercalate_cons_append, String.intercalate_cons_cons]

theorem termOrder_perm (ts : List Expr) : (termOrder ts).Perm ts := by
  have hsplit := List.takeWhile_append_dropWhile (p := hasMinus) (l := ts)
  unfold termOrder
  split
  · exact .refl ts
  · rename_i t rest hdrop
    rw [hdrop] at hsplit
    exact List.perm_middle.symm.trans (.of_eq hsplit)

end SymbolicSolver.Expr
