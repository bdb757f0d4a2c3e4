import SymbolicSolver.Equation.Isolate
import SymbolicSolver.Equation.Newton

/-!
# Solving equations

The tiers in their order, the first answer of which is taken, and the exact roots alone.
-/

namespace SymbolicSolver

/-- The tiers, each with its name. -/
def tiers : List (String × Tier) :=
  [("identite", identityTier), ("reel", realTier), ("generique", genericTier),
    ("numerique", numericTier)]

/-- The first answer of a list of tiers that share a verdict. -/
def firstAnswer? (p : Problem) : List Tier → Verdict → Option SolutionSet × Verdict
  | [], v => (none, v)
  | t :: ts, v =>
    match t p v with
    | (some s, v) => (some s, v)
    | (none, v) => firstAnswer? p ts v

/-- Solves an equation in an unknown. -/
def solveEquation (lhs rhs : Expr) (unknown : String) (settings : Settings) : SolutionSet :=
  ((firstAnswer? (Problem.ofSides lhs rhs unknown settings) (tiers.map (·.2)) .none).1).getD .empty

/-- The exact roots of an expression: those of the real or the generic tier, or none at all when there is
provably no root. -/
def exactRoots? (f : Expr) (unknown : String) (settings : Settings) : Option (List Expr) :=
  let p := Problem.ofSides f Expr.zero unknown settings
  if p.f.isZero then none
  else
    match firstAnswer? p [realTier, genericTier] .none with
    | (some (.exact roots), _) => some roots
    | (some _, _) => none
    | (none, v) => if v = .empty then some [] else none

end SymbolicSolver
