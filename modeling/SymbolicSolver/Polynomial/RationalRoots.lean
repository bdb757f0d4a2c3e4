import SymbolicSolver.Expr.Order
import SymbolicSolver.Polynomial.Basic

/-!
# Rational roots

A rational root in lowest terms has a numerator that divides the constant and a denominator that divides
the leading coefficient of the polynomial cleared of denominators, so that finitely many candidates remain.
-/

namespace SymbolicSolver

/-- The divisors of a positive natural, in increasing order: those up to its square root and their
cofactors. -/
def divisors (n : Nat) : List Nat :=
  let small := (List.range' 1 (floorSqrt n)).filter fun d => n % d = 0
  small ++ ((small.filter fun d => d ≠ n / d).map fun d => n / d).reverse

namespace RatPoly

/-- The largest constant or leading coefficient whose divisors are tried. -/
def maxRootCoeff : Nat := 1000000000000

/-- The least common multiple of the denominators. -/
def commonDenominator (cs : List Rat) : Nat :=
  cs.foldl (fun m c => m.lcm c.den) 1

/-- The candidates for rational roots of a polynomial with the given constant and leading coefficients. -/
def rootCandidates (constant lead : Nat) : List Rat :=
  (divisors lead).flatMap fun d =>
    (divisors constant).flatMap fun (n : Nat) => [mkRat n d, mkRat (-(n : Int)) d]

/-- The candidates that are roots, each once, in order of first appearance after those already found. -/
def testCandidates (cs : List Rat) (found candidates : List Rat) : List Rat :=
  candidates.foldl (fun out r => if !out.contains r && evalList r cs = 0 then out ++ [r] else out) found

/-- The rational roots, in increasing order, each once. Zero is always found; the others only while the
constant and the leading coefficient are not too large. -/
def rationalRoots (p : RatPoly) : List Rat :=
  if p.coeffs.length ≤ 1 then []
  else
    let zeros : List Rat := if p.coeff 0 = 0 then [0] else []
    let cs := p.coeffs.dropWhile (· = 0)
    if cs.length ≤ 1 then zeros
    else
      let m := commonDenominator cs
      let scaled (c : Rat) : Nat := (c * (m : Rat)).num.natAbs
      let constant := scaled (cs.head?.getD 0)
      let lead := scaled (cs.getLast?.getD 0)
      if maxRootCoeff < constant ∨ maxRootCoeff < lead then zeros
      else
        (testCandidates cs zeros (rootCandidates constant lead)).mergeSort fun a b =>
          (Expr.compareRat a b).isLE

end RatPoly

end SymbolicSolver
