import SymbolicSolver.Expr.Fraction
import SymbolicSolver.Polynomial.ClosedForm
import SymbolicSolver.Polynomial.Coefficients
import SymbolicSolver.Simplify.Basic

/-!
# Sums over an index

Finite sums are added term by term up to a budget, and beyond it by the closed forms for polynomials and for
geometric sequences. Infinite sums are those of polynomials, which diverge, of geometric sequences, of even
inverse powers, and of telescoping fractions.
-/

namespace SymbolicSolver

/-- The upper bound of a sum. -/
inductive UpperBound where
  | finite (n : Int)
  | infinite

namespace UpperBound

/-- The text of a bound. -/
def text : UpperBound → String
  | finite n => toString n
  | infinite => "oo"

end UpperBound

namespace Expr

/-! ## Finite sums -/

/-- The term at an index. -/
def termAt (f : Expr) (name : String) (k : Int) : Expr := f.subst name (int k)

/-- The `n` whole numbers from `a` on. -/
def indices (a : Int) (n : Nat) : List Int := (List.range n).map fun (k : Nat) => a + k

/-- The sum of the terms at the indices from `a` to `b`. -/
def sumTerms (f : Expr) (name : String) (a b : Int) : Expr :=
  sum ((indices a (b + 1 - a).toNat).map (termAt f name))

/-- The running sums of a list of expressions, starting from `acc`. -/
def partialSums (acc : Expr) : List Expr → List Expr
  | [] => []
  | x :: xs => (acc + x) :: partialSums (acc + x) xs

/-- The weight at `b` of an interpolation point among the points before and after it. -/
def interpolationWeight (b : Rat) (s : List Int × Int × List Int) : Rat :=
  (s.1 ++ s.2.2).foldl (fun w (p : Int) => w * ((b - p) / ((s.2.1 : Rat) - p))) 1

/-- The sum of a polynomial, which is a polynomial in the upper bound of one degree more, interpolated from its
first values. -/
def sumPolynomial? (f : Expr) (name : String) (a b : Int) : Option Expr :=
  (f.coefficients? name).map fun cs =>
    let points := indices a (cs.length + 1)
    let values := partialSums zero (points.map (termAt f name))
    sum (((splits points).zip values).map fun p =>
      rat (interpolationWeight b p.1) * p.2)

/-- The quotient of neighbouring terms, where it does not depend on the index and is not one. -/
def ratio? (f : Expr) (name : String) : Option Expr :=
  let q := (f.subst name (var name + one) / f).simplify
  if !q.hasVar name && !q.isOne && q.isFinite then some q else none

/-- The sum of a geometric sequence. -/
def sumGeometric? (f : Expr) (name : String) (a b : Int) : Option Expr :=
  (ratio? f name).map fun q =>
    termAt f name a * (one - power q (int (b - a + 1))) / (one - q)

/-- The sum from `a` to `b`, for `a ≤ b`. -/
def sumOrdered? (f : Expr) (name : String) (a b : Int) (maxTerms : Nat) : Option Expr :=
  if (b - a + 1).toNat ≤ maxTerms then some (sumTerms f name a b)
  else (sumPolynomial? f name a b).or (sumGeometric? f name a b)

/-- The sum from `a` to `b`. With the bounds reversed it is minus the sum over what lies strictly between
them, and so zero when nothing does. -/
def sumFinite? (f : Expr) (name : String) (a b : Int) (maxTerms : Nat) : Option Expr :=
  if a ≤ b then sumOrdered? f name a b maxTerms
  else if b + 1 = a then some zero
  else (sumOrdered? f name (b + 1) (a - 1) maxTerms).map fun s => -s

/-! ## Infinite sums -/

/-- The sum of a polynomial, from its leading coefficient. -/
def infinitePolynomial? (cs : List Expr) : Option Expr :=
  match cs.getLast? with
  | none => none
  | some lead =>
    if lead.isZero then some zero
    else lead.constantSign?.map fun s => if s = 1 then infinity else negInfinity

/-- The sum of a geometric sequence with the given first term and ratio. -/
def infiniteGeometric? (first q : Expr) : Option Expr :=
  match q.evaluateConstant with
  | .error _ => none
  | .ok z =>
    if z.im != 0 then none
    else if z.re.abs < 1 then some (first / (one - q))
    else if z.re >= 1 then
      match first.constantSign? with
      | some 1 => some infinity
      | some (-1) => some negInfinity
      | _ => none
    else none

/-- The sum of all inverse powers with an even exponent up to eight. -/
def zetaValue? (p : Int) : Option Expr :=
  let piOver (d : Int) : Expr := power pi (int p) / int d
  match p with
  | 2 => some (piOver 6)
  | 4 => some (piOver 90)
  | 6 => some (piOver 945)
  | 8 => some (piOver 9450)
  | _ => none

/-- The sum of `c / k^p` from a positive index on. -/
def infiniteInversePower? (f : Expr) (name : String) (a : Int) : Option Expr :=
  let (c, rest) := f.splitCoeff
  match rest with
  | pow (var s) x =>
    if s ≠ name then none
    else
      x.smallInt?.bind fun n =>
        if n = -1 then
          (rat c).constantSign?.map fun s => if 0 < s then infinity else negInfinity
        else
          (zetaValue? (-n)).map fun z => rat c * (z - sumTerms rest name 1 (a - 1))
  | _ => none

/-- The largest harmonic number that is computed. -/
def maxHarmonic : Nat := 100000

/-- The `n`-th harmonic number. -/
def harmonic (n : Nat) : Rat := (List.range n).foldl (fun h j => h + mkRat 1 (j + 1)) 0

/-- Adds the parts `A / (k - r)` of a fraction at its simple poles: minus the total of `A` times the harmonic
number before the first index, and the total of the `A`. Every pole lies a whole number before the first
index. -/
def telescopingParts? (num slope : RatPoly) (a : Rat) : List Rat → Option (Rat × Rat)
  | [] => some (0, 0)
  | r :: rs =>
    let s := a - r
    if s.den = 1 ∧ 0 < s ∧ s.num.natAbs - 1 ≤ maxHarmonic then
      let c := num.eval r / slope.eval r
      (telescopingParts? num slope a rs).map fun rest =>
        (rest.1 - c * harmonic (s.num.natAbs - 1), rest.2 + c)
    else none

/-- The sum of a fraction with simple rational poles whose parts cancel in the long run. -/
def infiniteTelescoping? (f : Expr) (name : String) (a : Int) : Option Expr :=
  let q := f.toFraction
  match q.num.ratPoly? name, q.den.ratPoly? name with
  | some n, some d =>
    let roots := d.rationalRoots
    if d.isZero || d.coeffs.length ≤ max n.coeffs.length 1 || roots.length + 1 ≠ d.coeffs.length then
      none
    else
      (telescopingParts? n d.derivative a roots).bind fun t =>
        if t.2 = 0 then some (rat t.1) else none
  | _, _ => none

/-- The sum from `a` to infinity. -/
def sumInfinite? (f : Expr) (name : String) (a : Int) : Option Expr :=
  match f.coefficients? name with
  | some cs => infinitePolynomial? cs
  | none =>
    match ratio? f name with
    | some q => infiniteGeometric? (termAt f name a) q
    | none =>
      if 0 < a then (infiniteInversePower? f name a).or (infiniteTelescoping? f name a) else none

/-- The sum of an expression over an index, if a method applies. -/
def summation? (f : Expr) (name : String) (a : Int) (b : UpperBound) (maxTerms : Nat) : Option Expr :=
  match b with
  | .finite b => sumFinite? f name a b maxTerms
  | .infinite => sumInfinite? f name a

end Expr

end SymbolicSolver
