import SymbolicSolver.Calculus.Derivative
import SymbolicSolver.Equation.Basic

/-!
# The numeric tier

Newton's iteration from fixed starting points, for an equation in the unknown alone.
-/

namespace SymbolicSolver

/-- Newton's iteration from `x`: a root once the value is zero, or once the step is negligible and the value
small. It is given up where a value is missing, the slope vanishes, or no step is left. -/
def newton? (f df : Expr) (name : String) : Nat → Float → Option Float
  | 0, _ => none
  | n + 1, x =>
    match f.evaluateAt? name x with
    | none => none
    | some fx =>
      if fx == 0 then some x
      else
        match df.evaluateAt? name x with
        | none => none
        | some slope =>
          if slope == 0 || !slope.isFinite then none
          else
            let step := fx / slope
            let x := x - step
            if !x.isFinite then none
            else if step.abs <= 1e-14 * (1 + x.abs) then
              (f.evaluateAt? name x).bind fun fx => if fx.abs < 1e-9 then some x else none
            else newton? f df name n x

/-- The roots found from the starting points, each once. -/
def newtonRoots (f : Expr) (name : String) (settings : Settings) : List Float :=
  let df := Expr.derivative name f
  settings.seeds.foldl
    (fun out seed =>
      match newton? f df name settings.newtonSteps seed with
      | some r => if out.any (· == r) then out else out ++ [r]
      | none => out) []

/-- The last tier: numeric roots. -/
def numericTier : Tier := fun p v =>
  if !p.f.hasVar p.unknown || 1 < p.f.freeVars.length then (none, v)
  else
    match newtonRoots p.f p.unknown p.settings with
    | [] => (none, v)
    | roots => (some (.numeric (roots.map .real)), v)

end SymbolicSolver
