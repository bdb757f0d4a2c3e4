import SymbolicSolver.Expr.Fraction
import SymbolicSolver.Polynomial.Coefficients
import SymbolicSolver.Polynomial.ClosedForm

/-!
# Integrals of rational functions

A quotient of polynomials is a polynomial plus a proper fraction. The proper fraction is split over the
rational roots of its denominator, with multiplicities, and at most one remaining factor of degree two; the
coefficients at a root are the first ones of a power series there. Each part then has an integral of its
own.
-/

namespace SymbolicSolver

namespace RatPoly

def ofConst (c : Rat) : RatPoly := ofList [c]

/-- The polynomial `x - r`. -/
def linear (r : Rat) : RatPoly := ofList [-r, 1]

def add (p q : RatPoly) : RatPoly := ofList (addList p.coeffs q.coeffs)

/-- A power with a natural exponent. -/
def pow (p : RatPoly) : Nat → RatPoly
  | 0 => ofConst 1
  | n + 1 => (pow p n).mul p

/-- The coefficients of `p (t + c)` as a polynomial in `t`. -/
def shiftList (c : Rat) : List Rat → RatPoly
  | [] => zero
  | a :: as => ((shiftList c as).mul (linear (-c))).add (ofConst a)

/-- The polynomial with its origin moved to `c`. -/
def shift (p : RatPoly) (c : Rat) : RatPoly := shiftList c p.coeffs

/-- The next coefficient of the power series of `a / b`, after the given first ones. -/
def seriesNext (a b : RatPoly) (s : List Rat) : Rat :=
  let k := s.length
  (s.zipIdx.foldl (fun acc x => acc - x.1 * b.coeff (k - x.2)) (a.coeff k)) / b.coeff 0

/-- The first coefficients of the power series of `a / b`, for `b` nonzero at the origin. -/
def series (a b : RatPoly) : Nat → List Rat
  | 0 => []
  | m + 1 =>
    let s := series a b m
    s ++ [seriesNext a b s]

/-- The integrals of the terms, the first one having degree `k`. -/
def integralFrom : Nat → List Rat → List Rat
  | _, [] => []
  | k, c :: cs => c / ((k : Rat) + 1) :: integralFrom (k + 1) cs

/-- The integral without constant term. -/
def integral (p : RatPoly) : RatPoly := ofList (0 :: integralFrom 0 p.coeffs)

/-- Divides by `x - r` for as long as `r` is a root, and counts. -/
def rootMultiplicity (r : Rat) : Nat → RatPoly → Nat × RatPoly
  | 0, p => (0, p)
  | n + 1, p =>
    if 2 ≤ p.coeffs.length && p.eval r = 0 then
      let rest := rootMultiplicity r n (p.deflate r)
      (rest.1 + 1, rest.2)
    else (0, p)

/-- Divides the given roots out of a polynomial: each with its multiplicity, and what is left. -/
def splitRoots : List Rat → RatPoly → List (Rat × Nat) × RatPoly
  | [], p => ([], p)
  | r :: rs, p =>
    let m := rootMultiplicity r p.coeffs.length p
    let rest := splitRoots rs m.2
    ((r, m.1) :: rest.1, rest.2)

/-- The parts `(j, a)`, standing for `a / (x - r)^j`, of `p / d` at the root `r` of multiplicity `m`. -/
def partsAt (p d : RatPoly) (r : Rat) (m : Nat) : List (Nat × Rat) :=
  let h := (d.divMod ((linear r).pow m)).1
  let s := series (p.shift r) (h.shift r) m
  (s.zipIdx.filter fun a => a.1 ≠ 0).map fun a => (m - a.2, a.1)

end RatPoly

namespace Expr

/-- The integral of `a / (x - r)^j`. -/
def integralOfPart (name : String) (r : Rat) (part : Nat × Rat) : Expr :=
  let base := var name - rat r
  if part.1 = 1 then rat part.2 * apply .log base
  else
    let k := int (1 - (part.1 : Int))
    rat part.2 * power base k / k

/-- The integral of `(b x + c) / (x² + p x + s)`, by the sign of the discriminant. -/
def integralOfQuadratic? (name : String) (b c : Rat) (q : RatPoly) : Option Expr :=
  let p := rat (q.coeff 1)
  let s := rat (q.coeff 0)
  let x := var name
  let b := rat b
  let trinomial := power x (int 2) + p * x + s
  let logPart := b / int 2 * apply .log trinomial
  let k := rat c - b * p / int 2
  let delta := int 4 * s - p * p
  let lin := int 2 * x + p
  match delta.constantSign? with
  | some 1 =>
    let w := sqrt delta
    some (logPart + int 2 * k / w * apply .atan (lin / w))
  | some (-1) =>
    let w := sqrt (-delta)
    some (logPart + k / w * apply .log ((lin - w) / (lin + w)))
  | _ => none

/-- The integral of a proper fraction `r / d`, if the denominator has a known factorisation. -/
def integralOfProper? (r d : RatPoly) (name : String) : Option Expr :=
  let r := r.scale d.lead⁻¹
  let d := d.monic
  let (roots, q) := RatPoly.splitRoots d.rationalRoots d
  let parts := roots.flatMap fun root => (r.partsAt d root.1 root.2).map fun p => (root.1, p)
  let pieces := parts.map fun p => integralOfPart name p.1 p.2
  match q.degree? with
  | some 0 => some (sum pieces)
  | some 2 =>
    let removed := parts.foldl
      (fun acc p => acc.add ((d.divMod ((RatPoly.linear p.1).pow p.2.1)).1.scale p.2.2)) RatPoly.zero
    let others := (d.divMod q).1
    let bc := ((r.sub removed).divMod others).1
    (integralOfQuadratic? name (bc.coeff 1) (bc.coeff 0) q).map fun last => sum (pieces ++ [last])
  | _ => none

/-- The integral of a quotient of polynomials with rational coefficients. -/
def integralOfRational? (x : Expr) (name : String) : Option Expr :=
  let f := x.toFraction
  match f.num.ratPoly? name, f.den.ratPoly? name with
  | some n, some d =>
    if d.isZero then none
    else
      let (q, r) := n.divMod d
      let whole := ofRatPoly q.integral name
      if r.isZero then some (sum [whole])
      else (integralOfProper? r d name).map fun proper => sum [whole, proper]
  | _, _ => none

end Expr

end SymbolicSolver
