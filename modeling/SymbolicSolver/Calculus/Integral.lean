import SymbolicSolver.Calculus.Derivative
import SymbolicSolver.Calculus.PartialFraction
import SymbolicSolver.Simplify.Basic

/-!
# Integrals

Antiderivatives without constant of integration. After linearity the rules are tried in a fixed order: a
table for functions of an affine argument, partial fractions, a change of variable, integration by parts,
and expansion. A rule that has to integrate again does so one level deeper; there are four levels.
-/

namespace SymbolicSolver.Expr

/-! ## Table -/

/-- The slope of an affine expression that is not constant. -/
def slope? (u : Expr) (name : String) : Option Expr :=
  match u.coefficients? name with
  | some [_, a] => if a.isZero then none else some a
  | _ => none

/-- An antiderivative of a function at `u`, without division by the slope of `u`. -/
def funcIntegral? (f : Func) (u : Expr) : Option Expr :=
  let log (x : Expr) : Expr := apply .log x
  let u2 := power u (int 2)
  match f with
  | .sin => some (-apply .cos u)
  | .cos => some (apply .sin u)
  | .tan => some (-log (apply .cos u))
  | .cot => some (log (apply .sin u))
  | .sec => some (log (apply .sec u + apply .tan u))
  | .csc => some (-log (apply .csc u + apply .cot u))
  | .sinh => some (apply .cosh u)
  | .cosh => some (apply .sinh u)
  | .tanh => some (log (apply .cosh u))
  | .log => some (u * apply .log u - u)
  | .asin => some (u * apply .asin u + sqrt (one - u2))
  | .acos => some (u * apply .acos u - sqrt (one - u2))
  | .atan => some (u * apply .atan u - half * log (u2 + one))
  | .acot => some (u * apply .acot u + half * log (u2 + one))
  | .asec | .acsc => none

/-- An antiderivative of a power of a circular function at `u`, where `u` has the slope `a`. -/
def circularPowerIntegral? (f : Func) (n : Int) (u a x : Expr) : Option Expr :=
  let sin2u := apply .sin (int 2 * u)
  match f, n with
  | .sin, 2 => some (half * x - sin2u / (int 4 * a))
  | .cos, 2 => some (half * x + sin2u / (int 4 * a))
  | .tan, 2 => some (apply .tan u / a - x)
  | .cot, 2 => some (-apply .cot u / a - x)
  | .sec, 2 | .cos, -2 => some (apply .tan u / a)
  | .csc, 2 | .sin, -2 => some (-apply .cot u / a)
  | .cos, -1 => (funcIntegral? .sec u).map (· / a)
  | .sin, -1 => (funcIntegral? .csc u).map (· / a)
  | _, _ => none

/-- The squares and reciprocals of circular functions of an affine argument. -/
def circularPower? (x : Expr) (name : String) : Option Expr :=
  match x with
  | pow (fn f u) n =>
    (slope? u name).bind fun a =>
      n.smallInt?.bind fun k => circularPowerIntegral? f k u a (var name)
  | _ => none

/-- Powers and functions of an affine argument. -/
def basicIntegral? (x : Expr) (name : String) : Option Expr :=
  match x with
  | var _ => some (half * power (var name) (int 2))
  | pow b n =>
    if !n.hasVar name then
      (slope? b name).map fun a =>
        if n.smallInt? = some (-1) then apply .log b / a
        else power b (n + one) / ((n + one) * a)
    else if !b.hasVar name then
      (slope? n name).map fun a => x / (a * apply .log b)
    else none
  | fn f u => (slope? u name).bind fun a => (funcIntegral? f u).map (· / a)
  | _ => none

/-- The table of antiderivatives. -/
def tableIntegral? (x : Expr) (name : String) : Option Expr :=
  (circularPower? x name).or (basicIntegral? x name)

/-! ## Change of variable -/

/-- The largest number of inner expressions that are tried as new variables. -/
def maxInnerExprs : Nat := 8

/-- The inner expressions that hold the variable, the largest first. -/
def innerExprs (x : Expr) (name : String) : List Expr :=
  let inner := distinct ((subtrees x).tail.filter fun y => y.hasVar name && !y.isVar)
  (inner.mergeSort fun a b => b.size ≤ a.size).take maxInnerExprs

/-- Writes `x` over the derivative of `u` as an expression in the new variable alone, if possible. -/
def inTermsOf? (x u : Expr) (name fresh : String) : Option Expr :=
  let du := derivative name u
  if du.isZero then none
  else
    let q := x / du
    let g := q.replace u (var fresh)
    if !g.hasVar name then some g
    else
      let g := q.simplify.replace u (var fresh)
      if g.hasVar name then none else some g

/-- Integrates by a change of variable, with the given rule for what results. -/
def bySubstitution? (deeper : Expr → String → Option Expr) (x : Expr) (name fresh : String) :
    Option Expr :=
  (innerExprs x name).findSome? fun u =>
    (inTermsOf? x u name fresh).bind fun g =>
      (deeper g fresh).map fun p => p.subst fresh u

/-! ## Integration by parts -/

/-- Whether a factor is a logarithm or an inverse function, which its derivative simplifies. -/
def isLogOrInverse : Expr → Bool
  | fn f _ => f = .log || f = .asin || f = .acos || f = .atan || f = .acot
  | _ => false

/-- Whether a factor is a positive whole power of the variable. -/
def isPowerOf (name : String) : Expr → Bool
  | var s => s = name
  | pow b (rat q) => b = var name && 0 < q && q.den = 1
  | _ => false

/-- Integrates a product by parts, with the given rule for what results. -/
def byParts? (deeper : Expr → String → Option Expr) (x : Expr) (name : String) : Option Expr :=
  let choices := splits x.factors
  let ordered :=
    choices.filter (fun s => isLogOrInverse s.2.1) ++ choices.filter (fun s => isPowerOf name s.2.1)
  if x.factors.length < 2 then none
  else
    ordered.findSome? fun s =>
      let u := s.2.1
      (deeper (product (s.1 ++ s.2.2)) name).bind fun v =>
        (deeper (derivative name u * v).simplify name).map fun w => u * v - w

/-! ## All rules -/

/-- Integrates an expression that is no sum and has no constant factor. -/
def integralByRules? (deeper : Expr → String → Option Expr) (fresh : String) (x : Expr)
    (name : String) : Option Expr :=
  (tableIntegral? x name).or <|
    (integralOfRational? x name).or <|
      (bySubstitution? deeper x name fresh).or <|
        (byParts? deeper x name).or <|
          let d := x.expand
          if d = x then none else deeper d name

/-- Integrates by linearity down to expressions for which the given rule answers. -/
def integralByLinearity? (rule : Expr → Option Expr) (name : String) : Nat → Expr → Option Expr
  | 0, _ => none
  | n + 1, x =>
    if !x.isFinite then none
    else if !x.hasVar name then some (x * var name)
    else
      match x with
      | add ts => (ts.mapM (integralByLinearity? rule name n)).map sum
      | mul fs =>
        let constants := fs.filter fun f => !f.hasVar name
        if constants = [] then rule x
        else
          (integralByLinearity? rule name n (product (fs.filter fun f => f.hasVar name))).map
            fun p => product constants * p
      | _ => rule x

/-- The largest number of rules that may integrate inside one another. -/
def integralLevels : Nat := 4

/-- The antiderivative at a level, with a given number of levels left. -/
def integralAt? : Nat → Nat → Expr → String → Option Expr
  | 0, _, _, _ => none
  | n + 1, level, x, name =>
    let rule (y : Expr) : Option Expr :=
      integralByRules? (integralAt? n (level + 1)) ("_u" ++ toString level) y name
    integralByLinearity? rule name (2 * x.size + 8) x

/-- The antiderivative of an expression, if a rule applies. -/
def integral? (x : Expr) (name : String) : Option Expr :=
  integralAt? integralLevels 0 x name

end SymbolicSolver.Expr
