import SymbolicSolver.Expr.Basic

/-!
# Parts of expressions

Terms of sums, factors of products, all subtrees, and lists taken apart at each of their elements.
-/

namespace SymbolicSolver

/-- Every element of a list with what stands before and after it. -/
def splits {α : Type} : List α → List (List α × α × List α)
  | [] => []
  | x :: xs => ([], x, xs) :: (splits xs).map fun s => (x :: s.1, s.2.1, s.2.2)

namespace Expr

/-- The terms of a sum; any other expression is its only term. -/
def terms : Expr → List Expr
  | add ts => ts
  | x => [x]

/-- The factors of a product; any other expression is its only factor. -/
def factors : Expr → List Expr
  | mul fs => fs
  | x => [x]

def isSum : Expr → Bool
  | add _ => true
  | _ => false

def isProduct : Expr → Bool
  | mul _ => true
  | _ => false

mutual

/-- The subtrees of a tree, a node before its subtrees and the last child first. -/
def subtrees : Expr → List Expr
  | add xs => add xs :: subtreesAll xs
  | mul xs => mul xs :: subtreesAll xs
  | pow b x => pow b x :: (subtrees x ++ subtrees b)
  | fn f x => fn f x :: subtrees x
  | x => [x]

/-- The subtrees of a list of trees, those of the last tree first. -/
def subtreesAll : List Expr → List Expr
  | [] => []
  | x :: xs => subtreesAll xs ++ subtrees x

end

/-- The elements of a list, each once, in order of first appearance. -/
def distinct (xs : List Expr) : List Expr :=
  (xs.foldl (fun out x => if out.contains x then out else x :: out) []).reverse

end Expr

end SymbolicSolver
