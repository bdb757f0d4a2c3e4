import SymbolicSolver.Expr.Func
import SymbolicSolver.Number.Rational

/-!
# Expressions

Exact expression trees: rationals, the constants `π`, `e` and `i`, infinity, the undefined value, variables,
sums and products of any number of operands, powers, and applications of named functions. Minus infinity
is the product of `-1` and infinity; roots are powers with a fractional exponent.

Equality of trees is decidable (`Expr.same_iff`). The functions here look at trees and do not build them;
the building functions, which keep trees in canonical form, stand in `Expr.Canonical` and `Expr.Apply`.
-/

namespace SymbolicSolver

/-- An exact expression. -/
inductive Expr where
  | rat (q : Rat)
  | pi
  | e
  | i
  | infinity
  | undefined
  | var (name : String)
  | add (terms : List Expr)
  | mul (factors : List Expr)
  | pow (base exponent : Expr)
  | fn (f : Func) (arg : Expr)

namespace Expr

instance : Inhabited Expr := ⟨undefined⟩

/-! ## Equality -/

mutual

/-- Equality of trees, as a test. -/
def same : Expr → Expr → Bool
  | rat p, rat q => p = q
  | pi, pi => true
  | e, e => true
  | i, i => true
  | infinity, infinity => true
  | undefined, undefined => true
  | var x, var y => x = y
  | add xs, add ys => sameAll xs ys
  | mul xs, mul ys => sameAll xs ys
  | pow a x, pow b y => same a b && same x y
  | fn f x, fn g y => f = g && same x y
  | _, _ => false

/-- Equality of lists of trees, as a test. -/
def sameAll : List Expr → List Expr → Bool
  | [], [] => true
  | x :: xs, y :: ys => same x y && sameAll xs ys
  | _, _ => false

end

mutual

theorem same_self : ∀ a : Expr, a.same a = true
  | rat _ | pi | e | i | infinity | undefined | var _ => by simp [same]
  | add xs => by simp [same, sameAll_self xs]
  | mul xs => by simp [same, sameAll_self xs]
  | pow b x => by simp [same, same_self b, same_self x]
  | fn _ x => by simp [same, same_self x]

theorem sameAll_self : ∀ xs : List Expr, sameAll xs xs = true
  | [] => by simp [sameAll]
  | x :: xs => by simp [sameAll, same_self x, sameAll_self xs]

end

mutual

theorem eq_of_same : ∀ a b : Expr, a.same b = true → a = b
  | rat _, b => by cases b <;> simp [same]
  | pi, b => by cases b <;> simp [same]
  | e, b => by cases b <;> simp [same]
  | i, b => by cases b <;> simp [same]
  | infinity, b => by cases b <;> simp [same]
  | undefined, b => by cases b <;> simp [same]
  | var _, b => by cases b <;> simp [same]
  | add xs, b => by
    cases b <;> simp [same]
    exact eq_of_sameAll xs _
  | mul xs, b => by
    cases b <;> simp [same]
    exact eq_of_sameAll xs _
  | pow a x, b => by
    cases b <;> simp [same]
    exact fun ha hx => ⟨eq_of_same a _ ha, eq_of_same x _ hx⟩
  | fn f x, b => by
    cases b <;> simp [same]
    exact fun hf hx => ⟨hf, eq_of_same x _ hx⟩

theorem eq_of_sameAll : ∀ xs ys : List Expr, sameAll xs ys = true → xs = ys
  | [], ys => by cases ys <;> simp [sameAll]
  | x :: xs, ys => by
    cases ys <;> simp [sameAll]
    exact fun hx hs => ⟨eq_of_same x _ hx, eq_of_sameAll xs _ hs⟩

end

/-- The test decides equality. -/
theorem same_iff (a b : Expr) : a.same b = true ↔ a = b :=
  ⟨eq_of_same a b, fun h => h ▸ same_self a⟩

instance : DecidableEq Expr := fun a b => decidable_of_iff _ (same_iff a b)

/-! ## Leaves -/

/-- A whole number. -/
def int (n : Int) : Expr := rat n

/-- The quotient of two whole numbers. -/
def frac (n : Int) (d : Nat) : Expr := rat (mkRat n d)

def zero : Expr := rat 0
def one : Expr := rat 1
def half : Expr := frac 1 2

/-- Minus infinity, as the product that stands for it. -/
def negInfinity : Expr := mul [rat (-1), infinity]

/-! ## Simple tests and views -/

def isZero : Expr → Bool
  | rat q => q = 0
  | _ => false

def isOne : Expr → Bool
  | rat q => q = 1
  | _ => false

/-- The rational that a rational leaf holds. -/
def rat? : Expr → Option Rat
  | rat q => some q
  | _ => none

/-- Whether the expression is a whole number. -/
def isInteger : Expr → Bool
  | rat q => Rational.isInt q
  | _ => false

/-- Whether a whole number fits in a signed word of 64 bits. -/
def fitsWord (n : Int) : Bool :=
  -9223372036854775808 ≤ n && n < 9223372036854775808

/-- The whole number that the expression is, if it fits in a signed word of 64 bits. -/
def smallInt? : Expr → Option Int
  | rat q => if Rational.isInt q && fitsWord q.num then some q.num else none
  | _ => none

/-- The sign of an infinity, possibly behind a rational coefficient. -/
def infinitySign? : Expr → Option Int
  | infinity => some 1
  | mul [rat q, infinity] => if q < 0 then some (-1) else if 0 < q then some 1 else none
  | _ => none

/-- The factors as one expression, a single factor standing for itself. -/
def ofFactors : List Expr → Expr
  | [f] => f
  | fs => mul fs

/-- The rational coefficient in front and what it multiplies; a rational multiplies one. -/
def splitCoeff : Expr → Rat × Expr
  | rat q => (q, one)
  | mul (rat q :: fs) => (q, ofFactors fs)
  | x => (1, x)

/-- Whether a minus sign can be taken out, that is, the coefficient is negative. -/
def hasMinus (x : Expr) : Bool := x.splitCoeff.1 < 0

/-! ## Subtrees -/

mutual

/-- Whether the tree or one of its subtrees passes the test. -/
def exist (p : Expr → Bool) : Expr → Bool
  | add xs => p (add xs) || existAny p xs
  | mul xs => p (mul xs) || existAny p xs
  | pow b x => p (pow b x) || exist p b || exist p x
  | fn f x => p (fn f x) || exist p x
  | x => p x

/-- Whether a subtree of one of the trees passes the test. -/
def existAny (p : Expr → Bool) : List Expr → Bool
  | [] => false
  | x :: xs => exist p x || existAny p xs

end

/-- Whether the variable occurs. -/
def hasVar (name : String) (x : Expr) : Bool := x.exist (· = var name)

/-- Whether the target is the tree or one of its subtrees. -/
def contains (x target : Expr) : Bool := x.exist (· = target)

def isVar : Expr → Bool
  | var _ => true
  | _ => false

/-- Whether no variable occurs. -/
def isConstant (x : Expr) : Bool := !x.exist isVar

/-- Whether neither infinity nor the undefined value occurs. -/
def isFinite (x : Expr) : Bool := !x.exist (fun y => y = infinity || y = undefined)

mutual

/-- The number of nodes. -/
def size : Expr → Nat
  | add xs => sizeAll xs + 1
  | mul xs => sizeAll xs + 1
  | pow b x => size b + size x + 1
  | fn _ x => size x + 1
  | _ => 1

/-- The number of nodes of a list of trees. -/
def sizeAll : List Expr → Nat
  | [] => 0
  | x :: xs => size x + sizeAll xs

end

/-- Inserts a name into a sorted list of names without repetition. -/
def insertName (s : String) : List String → List String
  | [] => [s]
  | t :: ts => if s < t then s :: t :: ts else if s = t then t :: ts else t :: insertName s ts

mutual

/-- Adds the variables of a tree to a sorted list of names. -/
def collectVars : Expr → List String → List String
  | var s, acc => insertName s acc
  | add xs, acc => collectVarsAll xs acc
  | mul xs, acc => collectVarsAll xs acc
  | pow b x, acc => collectVars x (collectVars b acc)
  | fn _ x, acc => collectVars x acc
  | _, acc => acc

/-- Adds the variables of a list of trees to a sorted list of names. -/
def collectVarsAll : List Expr → List String → List String
  | [], acc => acc
  | x :: xs, acc => collectVarsAll xs (collectVars x acc)

end

/-- The variables, sorted, each once. -/
def freeVars (x : Expr) : List String := collectVars x []

end Expr

end SymbolicSolver
