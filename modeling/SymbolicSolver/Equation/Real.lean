import SymbolicSolver.Equation.Basic
import SymbolicSolver.Polynomial.ClosedForm

/-!
# The real tier

Real roots in closed form: of a numerator that is a polynomial with rational coefficients, or affine with
symbolic ones, without the roots at which the denominator vanishes.
-/

namespace SymbolicSolver

namespace Expr

mutual

/-- Whether the variable occurs outside circular functions. -/
def occursOutsideCircular (name : String) : Expr → Bool
  | var s => s = name
  | add xs => occursOutsideCircularAny name xs
  | mul xs => occursOutsideCircularAny name xs
  | pow b x => occursOutsideCircular name b || occursOutsideCircular name x
  | fn f x => !f.isCircular && occursOutsideCircular name x
  | _ => false

/-- Whether the variable occurs outside circular functions in one of the trees. -/
def occursOutsideCircularAny (name : String) : List Expr → Bool
  | [] => false
  | x :: xs => occursOutsideCircular name x || occursOutsideCircularAny name xs

end

/-- Whether a denominator is nonzero at a root, as far as can be told. -/
def avoidsPole (d : Expr) (name : String) (root : Expr) : Bool :=
  let v := (d.subst name root).simplify
  if v.isZero || !v.isFinite then false
  else
    match v.evaluateConstant with
    | .ok z => z.norm > 1e-12
    | .error _ => !v.isConstant

/-- The roots at which the denominator does not vanish. -/
def excludePoles (roots : List Expr) (d : Expr) (name : String) : List Expr :=
  if d.hasVar name then roots.filter (avoidsPole d name) else roots

/-- The root of an affine polynomial with symbolic coefficients. -/
def affineRoot? (n : Expr) (name : String) : Option Expr :=
  match n.coefficients? name with
  | some [c0, c1] => some (-c0 / c1).simplify
  | _ => none

end Expr

/-- Gives the exact roots, or the verdict that there are none. -/
def exactOr (verdict : Verdict) (before : Verdict) (roots : List Expr) : Option SolutionSet × Verdict :=
  if roots.isEmpty then (none, verdict) else (some (.exact roots), before)

/-- The second tier: real roots in closed form. -/
def realTier : Tier := fun p v =>
  if !p.f.hasVar p.unknown then (none, .empty)
  else if !p.f.occursOutsideCircular p.unknown then (none, .periodic)
  else
    let f := p.f.toFraction
    let n := f.num.expand
    match n.ratPoly? p.unknown with
    | some q =>
      if q.isZero then (some .always, v)
      else
        match Expr.polynomialRoots? q false with
        | some roots => exactOr .empty v (Expr.excludePoles roots f.den p.unknown)
        | none => (none, .unsolved)
    | none =>
      exactOr .unsolved v (Expr.excludePoles (n.affineRoot? p.unknown).toList f.den p.unknown)

end SymbolicSolver
