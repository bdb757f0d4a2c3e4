import SymbolicSolver.Expr.Apply

/-!
# Substitution

Replacing subtrees: where a rule offers a replacement for a node it is taken, and elsewhere the children
are treated in the same way and the node is built anew in canonical form. Substitution for a variable and
replacement of a subtree are two such rules.
-/

namespace SymbolicSolver.Expr

mutual

/-- Replaces subtrees by a rule, from the top down. -/
def replaceBy (rule : Expr → Option Expr) : Expr → Expr
  | add xs => (rule (add xs)).getD (sum (replaceAllBy rule xs))
  | mul xs => (rule (mul xs)).getD (product (replaceAllBy rule xs))
  | pow b x => (rule (pow b x)).getD (power (replaceBy rule b) (replaceBy rule x))
  | fn f x => (rule (fn f x)).getD (apply f (replaceBy rule x))
  | x => (rule x).getD x

/-- Replaces subtrees in every tree of a list. -/
def replaceAllBy (rule : Expr → Option Expr) : List Expr → List Expr
  | [] => []
  | x :: xs => replaceBy rule x :: replaceAllBy rule xs

end

/-- Puts a value in place of a variable. -/
def subst (x : Expr) (name : String) (value : Expr) : Expr :=
  x.replaceBy fun y => if y = var name then some value else none

/-- Puts a value in place of every occurrence of a subtree. -/
def replace (x target value : Expr) : Expr :=
  x.replaceBy fun y => if y = target then some value else none

end SymbolicSolver.Expr
