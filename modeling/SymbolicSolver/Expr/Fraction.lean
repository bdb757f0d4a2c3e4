import SymbolicSolver.Expr.Canonical

/-!
# Common denominators

An expression as a quotient of two expressions without negative powers.
-/

namespace SymbolicSolver.Expr

/-- A numerator over a denominator. -/
structure Fraction where
  num : Expr
  den : Expr

namespace Fraction

/-- An expression over one. -/
def whole (x : Expr) : Fraction := ⟨x, one⟩

/-- Adds two fractions, over a common denominator that is no larger than needed when one of the
denominators is one or both are the same. -/
def plus (a b : Fraction) : Fraction :=
  if b.den = a.den then ⟨a.num + b.num, a.den⟩
  else if b.den.isOne then ⟨a.num + b.num * a.den, a.den⟩
  else if a.den.isOne then ⟨a.num * b.den + b.num, b.den⟩
  else ⟨a.num * b.den + b.num * a.den, a.den * b.den⟩

/-- Multiplies two fractions. -/
def times (a b : Fraction) : Fraction := ⟨a.num * b.num, a.den * b.den⟩

/-- A power of a base that is itself a fraction. A negative exponent swaps the sides; a fractional exponent
keeps the base whole. -/
def powerOf (b x : Expr) (base : Fraction) : Fraction :=
  match x with
  | rat q =>
    if q < 0 then
      if q.den = 1 then ⟨power base.den (rat (-q)), power base.num (rat (-q))⟩
      else ⟨one, power b (rat (-q))⟩
    else if q.den = 1 then ⟨power base.num x, power base.den x⟩
    else whole (pow b x)
  | _ => whole (pow b x)

end Fraction

mutual

/-- The expression as a fraction. -/
def toFraction : Expr → Fraction
  | rat q => ⟨rat q.num, rat q.den⟩
  | add ts => sumFractions ⟨zero, one⟩ ts
  | mul fs => multiplyFractions ⟨one, one⟩ fs
  | pow b x => Fraction.powerOf b x (toFraction b)
  | x => Fraction.whole x

/-- Adds the fractions of the terms to a running sum. -/
def sumFractions (acc : Fraction) : List Expr → Fraction
  | [] => acc
  | t :: ts => sumFractions (acc.plus (toFraction t)) ts

/-- Multiplies a running product by the fractions of the factors. -/
def multiplyFractions (acc : Fraction) : List Expr → Fraction
  | [] => acc
  | f :: fs => multiplyFractions (acc.times (toFraction f)) fs

end

end SymbolicSolver.Expr
