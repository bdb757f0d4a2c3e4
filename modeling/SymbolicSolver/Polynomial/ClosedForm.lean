import SymbolicSolver.Expr.Canonical
import SymbolicSolver.Number.FloatOrder
import SymbolicSolver.Polynomial.RationalRoots

/-!
# Roots in closed form

The quadratic formula, and the exact roots of a polynomial of which only a factor of degree two or a
quadratic in `x²` is left after the rational roots have been divided out.
-/

namespace SymbolicSolver.Expr

/-! ## Order of roots -/

/-- The numeric value by which a root is sorted; what has none comes last. -/
def rootValue (x : Expr) : Float × Float :=
  match x.evaluateConstant with
  | .ok z => (z.re, z.im)
  | .error _ => (1 / 0, 0)

/-- Compares numeric values by real part, then by imaginary part. -/
def compareValues (a b : Float × Float) : Ordering :=
  (compareFloat a.1 b.1).then (compareFloat a.2 b.2)

/-- Removes every expression that equals the one before it. -/
def dropRepeats : List Expr → List Expr
  | [] => []
  | x :: xs =>
    match dropRepeats xs with
    | [] => [x]
    | y :: ys => if x = y then y :: ys else x :: y :: ys

/-- Sorts roots by value and removes neighbours that are equal. -/
def sortRoots (roots : List Expr) : List Expr :=
  let keyed := roots.map fun r => (r.rootValue, r)
  dropRepeats ((keyed.mergeSort fun a b => (compareValues a.1 b.1).isLE).map (·.2))

/-! ## Quadratic equations -/

/-- The terms of an expression, each with its coefficient split off. -/
def splitTerms : Expr → List (Rat × Expr)
  | add ts => ts.map splitCoeff
  | x => [x.splitCoeff]

/-- A square root with the largest rational square taken out of the coefficients under it. -/
def symbolicSqrt (d : Expr) : Expr :=
  let parts := d.splitTerms
  let num := parts.foldl (fun g p => g.gcd p.1.num.natAbs) 0
  let den := parts.foldl (fun m p => m.lcm p.1.den) 1
  if num = 0 then sqrt d
  else
    let s : Rat := mkRat (extractPower 2 num).1 (extractPower 2 den).1.natAbs
    if s = 1 then sqrt d
    else rat s * sqrt (sum (parts.map fun p => rat (p.1 / (s * s)) * p.2))

/-- The roots of `a x² + b x + c`. A negative discriminant, or a constant one of unknown sign, has no roots
unless complex roots are asked for. -/
def quadraticRoots (a b c : Expr) (complex : Bool) : List Expr :=
  let disc := b * b - int 4 * a * c
  let twoA := int 2 * a
  let minusB := -b
  let pair : List Expr :=
    let r := if disc.isConstant then sqrt disc else symbolicSqrt disc
    [(minusB - r) / twoA, (minusB + r) / twoA]
  match disc.constantSign? with
  | some s =>
    if s = 0 then [minusB / twoA]
    else if s < 0 && !complex then []
    else pair
  | none => if disc.isConstant && !complex then [] else pair

/-! ## Polynomials -/

/-- Divides by `x - r` for as long as `r` is a root. -/
def deflateAll (r : Rat) : Nat → RatPoly → RatPoly
  | 0, p => p
  | n + 1, p =>
    if 2 ≤ p.coeffs.length && p.eval r = 0 then deflateAll r n (p.deflate r) else p

/-- The roots of a quadratic in `x²`. Without complex roots only the squares of known sign count that are
not negative. -/
def biquadraticRoots (a b c : Expr) (complex : Bool) : List Expr :=
  (quadraticRoots a b c true).flatMap fun y =>
    if !complex && (y.constantSign?).all (· < 0) then []
    else [-sqrt y, sqrt y]

/-- The roots of what is left after the rational roots are divided out, if there is a closed form. -/
def residualRoots? (q : RatPoly) (complex : Bool) : Option (List Expr) :=
  let c (k : Nat) : Expr := rat (q.coeff k)
  match q.degree? with
  | none | some 0 => some []
  | some 1 => some [-c 0 / c 1]
  | some 2 => some (quadraticRoots (c 2) (c 1) (c 0) complex)
  | some 4 =>
    if q.coeff 1 = 0 ∧ q.coeff 3 = 0 then some (biquadraticRoots (c 4) (c 2) (c 0) complex) else none
  | some _ => none

/-- The exact roots of a polynomial, sorted, if all have a closed form here. The zero polynomial has no list
of roots. -/
def polynomialRoots? (p : RatPoly) (complex : Bool) : Option (List Expr) :=
  match p.degree? with
  | none => none
  | some 0 => some []
  | some _ =>
    let rational := p.rationalRoots
    let q := rational.foldl (fun q r => deflateAll r q.coeffs.length q) p
    (residualRoots? q complex).map fun rest => sortRoots (rational.map rat ++ rest)

end SymbolicSolver.Expr
