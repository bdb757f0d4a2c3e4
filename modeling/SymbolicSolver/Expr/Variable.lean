import SymbolicSolver.Expr.Basic

/-!
# The variable to work in

A query that names no variable is about the first of `x`, `y`, `z` and `t` that occurs, else about the
alphabetically first variable, and about `x` when there is none.
-/

namespace SymbolicSolver.Expr

/-- The variables that are preferred, in order. -/
def preferredVars : List String := ["x", "y", "z", "t"]

/-- Chooses the variable to work in. -/
def mainVariable (x : Expr) : String :=
  let vars := x.freeVars
  ((preferredVars.find? (vars.contains ·)).or vars.head?).getD "x"

end SymbolicSolver.Expr
