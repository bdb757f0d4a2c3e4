import SymbolicSolver.Number.NumericRoot
import SymbolicSolver.Settings
import SymbolicSolver.Simplify.Basic

/-!
# Equations in one unknown

What an equation is to the tiers that solve it, and what they answer. The tiers run in order and share a
verdict: what an earlier tier found out without an answer.
-/

namespace SymbolicSolver

/-- The solutions of an equation. -/
inductive SolutionSet where
  | empty
  | always
  | exact (roots : List Expr)
  | numeric (roots : List NumericRoot)

/-- What the tiers so far found out without an answer: nothing, that there is no real solution, that the
method does not apply, or that the unknown occurs in circular functions only. -/
inductive Verdict where
  | none | empty | unsolved | periodic
  deriving DecidableEq

/-- An equation `f = 0` in an unknown. -/
structure Problem where
  f : Expr
  unknown : String
  settings : Settings

namespace Problem

/-- The equation of two sides, as their simplified difference. -/
def ofSides (lhs rhs : Expr) (unknown : String) (settings : Settings) : Problem :=
  ⟨(lhs - rhs).simplify, unknown, settings⟩

end Problem

/-- A tier takes the verdict so far and gives an answer or a new verdict. -/
abbrev Tier := Problem → Verdict → Option SolutionSet × Verdict

/-- The first tier: an identity is true always. -/
def identityTier : Tier := fun p v =>
  (if p.f.isZero then some .always else none, v)

end SymbolicSolver
