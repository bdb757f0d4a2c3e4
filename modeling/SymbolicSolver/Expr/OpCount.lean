import SymbolicSolver.Expr.Basic

/-!
# Visible operations

The size by which forms of one expression are compared: the number of operations that its text shows.
-/

namespace SymbolicSolver.Expr

/-- Whether the factors begin with `-1`, which is written as a sign and not as a factor. -/
def beginsWithMinusOne : List Expr → Bool
  | rat q :: _ => q = -1
  | _ => false

mutual

/-- The number of operations in the text: sums, products, quotients, powers, functions and signs. -/
def opCount : Expr → Nat
  | rat q => (if q < 0 then 1 else 0) + (if q.den = 1 then 0 else 1)
  | add xs => xs.length - 1 + opCountAll xs
  | mul xs => xs.length - 1 - (if beginsWithMinusOne xs then 1 else 0) + opCountAll xs
  | pow b x => opCount b + opCount x + 1
  | fn _ x => opCount x + 1
  | _ => 0

/-- The operations of a list of expressions. -/
def opCountAll : List Expr → Nat
  | [] => 0
  | x :: xs => opCount x + opCountAll xs

end

end SymbolicSolver.Expr
