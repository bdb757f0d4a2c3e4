import SymbolicSolver.Error
import SymbolicSolver.Expr.Basic
import SymbolicSolver.Number.ComplexFloat

/-!
# Numeric evaluation

The value of an expression in complex floating point, on principal branches, under an assignment of the
variables. Real operands in the domain of a real function are computed with that function, so that no
imaginary noise arises. A value that is not a number anywhere in the tree is a failure.
-/

namespace SymbolicSolver

open ComplexFloat (real)

/-- The values of the variables; a variable without a value cannot be evaluated. -/
abbrev Assignment := String → Option ComplexFloat

/-! ## Operations -/

namespace ComplexFloat

/-- A product; two real factors have a real product, also when one is infinite. -/
def times (a b : ComplexFloat) : ComplexFloat :=
  if a.im == 0 && b.im == 0 then real (a.re * b.re) else a * b

/-- A power: by the real power function for a real whole exponent or a base that is not negative,
otherwise the principal complex power. Zero has only powers with a positive real part. -/
def raise (b x : ComplexFloat) : Except Error ComplexFloat :=
  if b.im == 0 && x.im == 0 && ((x.re.floor == x.re && x.re.abs < 1e9) || b.re >= 0) then
    .ok (real (b.re.pow x.re))
  else if b.isZero then
    if x.re > 0 then .ok zero else .error .undefined
  else .ok (b.pow x)

/-- The ratio of a circle's circumference to its diameter, rounded. -/
def piFloat : Float := Float.ofBits 0x400921FB54442D18

/-- The base of the natural logarithm, rounded. -/
def eFloat : Float := Float.ofBits 0x4005BF0A8B145769

end ComplexFloat

namespace Func

/-- The inverse cosine; on the real segment from `-1` to `1` it is real. -/
def acosFloat (z : ComplexFloat) : ComplexFloat :=
  if z.im == 0 && z.re.abs <= 1 then real z.re.acos else z.acos

/-- The inverse sine; on the real segment from `-1` to `1` it is real. -/
def asinFloat (z : ComplexFloat) : ComplexFloat :=
  if z.im == 0 && z.re.abs <= 1 then real z.re.asin else z.asin

/-- The numeric value of a function. -/
def apply (f : Func) (z : ComplexFloat) : ComplexFloat :=
  let isReal := z.im == 0
  let x := z.re
  match f with
  | sin => if isReal then real x.sin else z.sin
  | cos => if isReal then real x.cos else z.cos
  | tan => if isReal then real x.tan else z.tan
  | cot => if isReal then real (1 / x.tan) else z.tan.inv
  | sec => if isReal then real (1 / x.cos) else z.cos.inv
  | csc => if isReal then real (1 / x.sin) else z.sin.inv
  | asin => asinFloat z
  | acos => acosFloat z
  | atan => if isReal then real x.atan else z.atan
  | acot =>
    if isReal then
      if x == 0 then real (ComplexFloat.piFloat / 2) else real (1 / x).atan
    else z.inv.atan
  | asec => acosFloat z.inv
  | acsc => asinFloat z.inv
  | sinh => if isReal then real x.sinh else z.sinh
  | cosh => if isReal then real x.cosh else z.cosh
  | tanh => if isReal then real x.tanh else z.tanh
  | log =>
    if isReal && x > 0 then real x.log
    else if z.isZero then real (-(1 / 0))
    else z.log

end Func

namespace Expr

/-! ## Evaluation -/

/-- Refuses a value with a component that is not a number. -/
def checked (z : ComplexFloat) : Except Error ComplexFloat :=
  if z.re.isNaN || z.im.isNaN then .error (.numeric "nan") else .ok z

mutual

/-- The value of an expression under an assignment. -/
def evaluate (env : Assignment) : Expr → Except Error ComplexFloat
  | rat q => checked (real (Rational.toFloat q))
  | pi => checked (real ComplexFloat.piFloat)
  | e => checked (real ComplexFloat.eFloat)
  | i => checked ComplexFloat.i
  | infinity => checked (real (1 / 0))
  | undefined => .error .undefined
  | var s => match env s with
    | some z => checked z
    | none => .error (.freeVariable s)
  | add xs => (sumValues env ComplexFloat.zero xs).bind checked
  | mul xs => (productValues env ComplexFloat.one xs).bind checked
  | pow b x =>
    (evaluate env b).bind fun u => (evaluate env x).bind fun v => (u.raise v).bind checked
  | fn f x => (evaluate env x).bind fun z => checked (f.apply z)

/-- Adds the values of the terms to a running sum, from left to right. -/
def sumValues (env : Assignment) (acc : ComplexFloat) : List Expr → Except Error ComplexFloat
  | [] => .ok acc
  | x :: xs => (evaluate env x).bind fun z => sumValues env (acc + z) xs

/-- Multiplies a running product by the values of the factors, from left to right. -/
def productValues (env : Assignment) (acc : ComplexFloat) : List Expr → Except Error ComplexFloat
  | [] => .ok acc
  | x :: xs => (evaluate env x).bind fun z => productValues env (acc.times z) xs

end

/-- The value of an expression without variables. -/
def evaluateConstant (x : Expr) : Except Error ComplexFloat :=
  x.evaluate fun _ => none

/-- The real part of a number whose imaginary part is negligible. -/
def realPart? (z : ComplexFloat) : Option Float :=
  if z.im.abs > 1e-12 * (1 + z.re.abs) then none else some z.re

/-- The real value of an expression in one variable at a point, if it has one. -/
def evaluateAt? (x : Expr) (name : String) (v : Float) : Option Float :=
  match x.evaluate fun s => if s = name then some (real v) else none with
  | .ok z => realPart? z
  | .error _ => none

/-- The sign of a real constant: `1`, `0` or `-1`. -/
def constantSign? (x : Expr) : Option Int :=
  if x.isConstant then
    match x.evaluateConstant with
    | .ok z => (realPart? z).map fun r => if r > 0 then 1 else if r < 0 then -1 else 0
    | .error _ => none
  else none

end Expr

end SymbolicSolver
