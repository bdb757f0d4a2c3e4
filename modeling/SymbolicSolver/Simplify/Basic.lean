import SymbolicSolver.Expr.Fraction
import SymbolicSolver.Expr.OpCount
import SymbolicSolver.Polynomial.Coefficients
import SymbolicSolver.Simplify.Trigonometric

/-!
# Simplification

Several forms of an expression are computed: the form itself, the one under the trigonometric identities,
the expanded one, and the reduced fraction. The form with the fewest visible operations is the answer, and
of several such the first.
-/

namespace SymbolicSolver.Expr

/-- Expressions with more nodes are left as they are. -/
def maxSimplifiedSize : Nat := 400

/-- Divides numerator and denominator by their greatest common divisor and makes the denominator monic. -/
def reduceFraction? (num den : RatPoly) (name : String) : Option Expr :=
  if den.isZero then none
  else
    let g := num.gcd den
    let top := (num.divMod g).1
    let bottom := (den.divMod g).1
    if bottom.isZero then none
    else some (ofRatPoly (top.scale bottom.lead⁻¹) name / ofRatPoly bottom.monic name)

/-- The expression over a common denominator, reduced when both sides are polynomials in one variable.
There is none when the denominator is one or vanishes. -/
def cancel? (x : Expr) : Option Expr :=
  let f := x.toFraction
  if f.den.isOne then none
  else
    let n := f.num.expand
    let d := f.den.expand
    if d.isZero then none
    else
      match d.collectVars n.freeVars with
      | [v] =>
        match n.ratPoly? v, d.ratPoly? v with
        | some p, some q => reduceFraction? p q v
        | _, _ => some (n / d)
      | _ => some (n / d)

/-- The first expression with the fewest visible operations, starting from `best`. -/
def fewestOps (best : Expr) (xs : List Expr) : Expr :=
  xs.foldl (fun a b => if b.opCount < a.opCount then b else a) best

/-- The forms that compete with the expression itself. -/
def simplifyForms (x : Expr) : List Expr :=
  let expanded := x.expand
  let cancelled :=
    match x.cancel? with
    | some f => [f.trigIdentities, f]
    | none => []
  x.trigIdentities :: (if expanded ≠ x then [expanded.trigIdentities] else []) ++ cancelled

/-- The shortest form of an expression. -/
def simplify (x : Expr) : Expr :=
  if maxSimplifiedSize < x.size then x else fewestOps x (simplifyForms x)

end SymbolicSolver.Expr
