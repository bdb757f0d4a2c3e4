import SymbolicSolver.Expr.Apply

/-!
# Derivatives

Symbolic differentiation: linearity, the product rule for any number of factors, the rules for powers, and the
chain rule. The result is canonical and not simplified.
-/

namespace SymbolicSolver.Expr

/-- The derivative of a function at `u`, without the inner derivative. -/
def funcDerivative (f : Func) (u : Expr) : Expr :=
  let square (x : Expr) : Expr := power x (int 2)
  let u2 := square u
  match f with
  | .sin => apply .cos u
  | .cos => -apply .sin u
  | .tan => one + square (apply .tan u)
  | .cot => -(one + square (apply .cot u))
  | .sec => apply .sec u * apply .tan u
  | .csc => -(apply .csc u * apply .cot u)
  | .asin => (sqrt (one - u2)).inverse
  | .acos => -(sqrt (one - u2)).inverse
  | .atan => (one + u2).inverse
  | .acot => -(one + u2).inverse
  | .asec => (u2 * sqrt (one - u2.inverse)).inverse
  | .acsc => -(u2 * sqrt (one - u2.inverse)).inverse
  | .sinh => apply .cosh u
  | .cosh => apply .sinh u
  | .tanh => one - square (apply .tanh u)
  | .log => u.inverse

/-- The derivative of a power from those of base and exponent. -/
def powerDerivative (name : String) (b x db dx : Expr) : Expr :=
  match b.hasVar name, x.hasVar name with
  | true, false => product [x, power b (x - one), db]
  | false, true => product [power b x, apply .log b, dx]
  | _, _ => product [power b x, dx * apply .log b + x * db / b]

mutual

/-- The derivative with respect to a variable. -/
def derivative (name : String) : Expr → Expr
  | var s => if s = name then one else zero
  | add ts => if (add ts).hasVar name then sum (derivativeAll name ts) else zero
  | mul fs => if (mul fs).hasVar name then sum (productRule name [] fs) else zero
  | pow b x =>
    if (pow b x).hasVar name then
      powerDerivative name b x (derivative name b) (derivative name x)
    else zero
  | fn f u =>
    if (fn f u).hasVar name then product [funcDerivative f u, derivative name u] else zero
  | _ => zero

/-- The derivatives of the terms of a sum. -/
def derivativeAll (name : String) : List Expr → List Expr
  | [] => []
  | t :: ts => derivative name t :: derivativeAll name ts

/-- The terms of the product rule: one for each factor with the variable, which is differentiated in its place
between the factors before (in reverse) and after it. -/
def productRule (name : String) (before : List Expr) : List Expr → List Expr
  | [] => []
  | f :: fs =>
    let rest := productRule name (f :: before) fs
    if f.hasVar name then product (before.reverse ++ derivative name f :: fs) :: rest else rest

end

end SymbolicSolver.Expr
