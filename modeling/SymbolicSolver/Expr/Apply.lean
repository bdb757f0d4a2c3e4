import SymbolicSolver.Expr.Angle

/-!
# Application of functions

`apply` builds the application of a named function in canonical form: exact values at special arguments, a
minus sign taken out by parity, a circular function of its own inverse undone, and the rules of the
logarithm.
-/

namespace SymbolicSolver.Expr

/-! ## Logarithms -/

/-- The logarithm of a positive rational; that of a unit fraction is the negative of its denominator's. -/
def logPositive (q : Rat) : Expr :=
  if q = 1 then zero
  else if q.num = 1 then -fn .log (rat q.den)
  else fn .log (rat q)

/-- The logarithm, on the principal branch. -/
def logarithm (x : Expr) : Expr :=
  match x with
  | rat q =>
    if q = 0 then negInfinity
    else if q < 0 then sum [logPositive (-q), product [i, pi]]
    else logPositive q
  | e => one
  | infinity => infinity
  | pow e u => u
  | x => fn .log x

/-! ## Parity -/

/-- What a minus sign of the argument becomes. -/
inductive Parity where
  | even | odd | none

/-- The parity of a function. -/
def parity : Func → Parity
  | .cos | .sec | .cosh => .even
  | .sin | .tan | .cot | .csc | .asin | .atan | .acot | .acsc | .sinh | .tanh => .odd
  | .acos | .asec | .log => .none

/-- The argument whose circular function undoes an inverse function. -/
def undone? (f : Func) : Expr → Option Expr
  | fn g u => if f.inverse? = some g then some u else none
  | _ => none

/-- The exact value at a special argument. -/
def specialValue? (f : Func) (x : Expr) : Option Expr :=
  if f.isCircular then circularValue? f x else inverseValue? f x

/-- Applies a function, taking out at most the given number of minus signs. -/
def applyWithin : Nat → Func → Expr → Expr
  | 0, f, x => if x = undefined then undefined else fn f x
  | n + 1, f, x =>
    if x = undefined then undefined
    else if f = .log then logarithm x
    else
      match specialValue? f x with
      | some v => v
      | none =>
        let plain := (undone? f x).getD (fn f x)
        if x.infinitySign?.isNone && x.hasMinus then
          match parity f with
          | .even => applyWithin n f (-x)
          | .odd => -applyWithin n f (-x)
          | .none => plain
        else plain

/-- The application of a function in canonical form. -/
def apply (f : Func) (x : Expr) : Expr := applyWithin (roundsFor x.size) f x

end SymbolicSolver.Expr
