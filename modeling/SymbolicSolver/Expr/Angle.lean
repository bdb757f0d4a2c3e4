import SymbolicSolver.Expr.Canonical

/-!
# Exact values at special arguments

The circular functions have exact values at the multiples of `π/4` and `π/6`; their inverses and the
hyperbolic functions have some at small rationals and at the infinities.
-/

namespace SymbolicSolver.Expr

/-- The rational `c` for which the expression is `c π`. -/
def piCoeff? : Expr → Option Rat
  | rat q => if q = 0 then some 0 else none
  | pi => some 1
  | mul [rat q, pi] => some q
  | _ => none

/-- The root of a whole number over a whole number. -/
def rootOver (n d : Nat) : Expr := product [frac 1 d, sqrt (int n)]

/-! ## Circular functions -/

/-- The sine of `k/n · π`, for `k` below `2 n`. -/
def sinValue? (k n : Nat) : Option Expr :=
  match k, n with
  | 0, _ | 1, 1 => some zero
  | 1, 6 | 5, 6 => some (frac 1 2)
  | 7, 6 | 11, 6 => some (frac (-1) 2)
  | 1, 4 | 3, 4 => some (rootOver 2 2)
  | 5, 4 | 7, 4 => some (-rootOver 2 2)
  | 1, 3 | 2, 3 => some (rootOver 3 2)
  | 4, 3 | 5, 3 => some (-rootOver 3 2)
  | 1, 2 => some one
  | 3, 2 => some (int (-1))
  | _, _ => none

/-- The cosine of `k/n · π`, for `k` below `2 n`. -/
def cosValue? (k n : Nat) : Option Expr :=
  match k, n with
  | 0, _ => some one
  | 1, 1 => some (int (-1))
  | 1, 6 | 11, 6 => some (rootOver 3 2)
  | 5, 6 | 7, 6 => some (-rootOver 3 2)
  | 1, 4 | 7, 4 => some (rootOver 2 2)
  | 3, 4 | 5, 4 => some (-rootOver 2 2)
  | 1, 3 | 5, 3 => some (frac 1 2)
  | 2, 3 | 4, 3 => some (frac (-1) 2)
  | 1, 2 | 3, 2 => some zero
  | _, _ => none

/-- The tangent of `k/n · π`, for `k` below `n`; it is undefined at the poles. -/
def tanValue? (k n : Nat) : Option Expr :=
  match k, n with
  | 0, _ => some zero
  | 1, 6 => some (rootOver 3 3)
  | 5, 6 => some (-rootOver 3 3)
  | 1, 4 => some one
  | 3, 4 => some (int (-1))
  | 1, 3 => some (sqrt (int 3))
  | 2, 3 => some (-sqrt (int 3))
  | 1, 2 => some undefined
  | _, _ => none

/-- Looks up `c π` in a table that repeats with the given number of half turns. -/
def atAngle? (table : Nat → Nat → Option Expr) (halfTurns : Int) (x : Expr) : Option Expr :=
  (piCoeff? x).bind fun c =>
    let r := Rational.reduceMod c halfTurns
    if r.den ∈ [1, 2, 3, 4, 6] then table r.num.natAbs r.den else none

/-- The reciprocal of a table value; zero has none. -/
def reciprocal (v : Expr) : Expr := if v.isZero then undefined else inverse v

/-- The exact value of a circular function at a special angle. -/
def circularValue? (f : Func) (x : Expr) : Option Expr :=
  match f with
  | .sin => atAngle? sinValue? 2 x
  | .cos => atAngle? cosValue? 2 x
  | .tan => atAngle? tanValue? 1 x
  | .csc => (atAngle? sinValue? 2 x).map reciprocal
  | .sec => (atAngle? cosValue? 2 x).map reciprocal
  | .cot => (atAngle? tanValue? 1 x).map fun v => if v = undefined then zero else reciprocal v
  | _ => none

/-! ## Inverse and hyperbolic functions -/

/-- The `n`-th part of `π`. -/
def piOver (n : Nat) : Expr := product [frac 1 n, pi]

/-- The value at an infinity of the given sign. -/
def valueAtInfinity? (f : Func) (sign : Int) : Option Expr :=
  let signed (v : Expr) : Expr := if sign < 0 then -v else v
  match f with
  | .atan => some (signed (piOver 2))
  | .acot => some (signed zero)
  | .tanh => some (signed one)
  | .sinh => some (signed infinity)
  | .cosh => some infinity
  | _ => none

/-- The value at a small rational. -/
def valueAtRational? (f : Func) (q : Rat) : Option Expr :=
  match f, q.num, q.den with
  | .asin, 0, _ | .atan, 0, _ | .sinh, 0, _ | .tanh, 0, _ => some zero
  | .cosh, 0, _ => some one
  | .asin, 1, 1 => some (piOver 2)
  | .asin, 1, 2 => some (piOver 6)
  | .acos, 1, 1 => some zero
  | .acos, 0, _ => some (piOver 2)
  | .acos, 1, 2 => some (piOver 3)
  | .acos, -1, 2 => some (product [frac 2 3, pi])
  | .acos, -1, 1 => some pi
  | .atan, 1, 1 => some (piOver 4)
  | .acot, 0, _ => some (piOver 2)
  | .acot, 1, 1 => some (piOver 4)
  | .asec, 1, 1 => some zero
  | .asec, -1, 1 => some pi
  | .acsc, 1, 1 => some (piOver 2)
  | _, _, _ => none

/-- The exact value of an inverse circular or hyperbolic function at a usual argument. -/
def inverseValue? (f : Func) (x : Expr) : Option Expr :=
  match x.infinitySign? with
  | some s => valueAtInfinity? f s
  | none => x.rat?.bind (valueAtRational? f)

end SymbolicSolver.Expr
