import SymbolicSolver.Expr.Apply
import SymbolicSolver.Expr.Parts

/-!
# Expansion

Products of sums and whole powers of sums are multiplied out, within a limit on the number of terms and on
the exponent.
-/

namespace SymbolicSolver.Expr

/-- The largest number of terms that a multiplication may produce. -/
def maxExpandedTerms : Nat := 2000

/-- The largest degree that is expanded or recognised. -/
def maxDegree : Nat := 64

/-- Multiplies two sums term by term. -/
def distribute (a b : Expr) : Expr :=
  if maxExpandedTerms < a.terms.length * b.terms.length then product [a, b]
  else sum (a.terms.flatMap fun x => b.terms.map fun y => product [x, y])

/-- The `n + 1`-st power of a sum, multiplied out. -/
def expandedPower (b : Expr) : Nat → Expr
  | 0 => b
  | n + 1 => distribute (expandedPower b n) b

/-- A power of an expanded base: whole powers of sums are multiplied out, below the fraction bar too. -/
def expandPower (b x : Expr) : Expr :=
  match x.smallInt? with
  | some n =>
    if b.isSum && 2 ≤ n.natAbs && n.natAbs ≤ maxDegree then
      if 0 < n then expandedPower b (n.natAbs - 1)
      else power (expandedPower b (n.natAbs - 1)) (rat (-1))
    else power b x
  | none => power b x

mutual

/-- Multiplies everything out. -/
def expand : Expr → Expr
  | add ts => sum (expandAll ts)
  | mul fs => (expandAll fs).foldl distribute one
  | pow b x => expandPower (expand b) (expand x)
  | fn f x => apply f (expand x)
  | x => x

/-- Expands every expression of a list. -/
def expandAll : List Expr → List Expr
  | [] => []
  | x :: xs => expand x :: expandAll xs

end

end SymbolicSolver.Expr
