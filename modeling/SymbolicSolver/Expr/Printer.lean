import SymbolicSolver.Expr.Canonical

/-!
# The text of an expression

Expressions are written in the grammar that the reader accepts: `**` for powers, `*` and `/` for products and
quotients, `sqrt` and `exp` for their powers, and signs taken out of terms. A sum that would begin with a
negative term begins with its first positive term instead.
-/

namespace SymbolicSolver.Expr

/-- A text in parentheses. -/
def inParens (s : String) : String := "(" ++ s ++ ")"

/-- A factor of a product; sums stand in parentheses. -/
def factorText (text : Expr → String) (x : Expr) : String :=
  match x with
  | add _ => inParens (text x)
  | _ => text x

/-- Whether a base or an exponent needs no parentheses. -/
def standsAlone : Expr → Bool
  | rat q => Rational.isInt q && 0 ≤ q
  | add _ | mul _ | pow _ _ => false
  | _ => true

/-- A base or an exponent. -/
def operandText (text : Expr → String) (x : Expr) : String :=
  if x.standsAlone then text x else inParens (text x)

/-- A power whose exponent is no negative rational. -/
def plainPowerText (text : Expr → String) (b x : Expr) : String :=
  if x = half then "sqrt" ++ inParens (text b)
  else if b = e then "exp" ++ inParens (text x)
  else operandText text b ++ "**" ++ operandText text x

/-- A power; one with a negative rational exponent is written as a reciprocal. -/
def powerText (text : Expr → String) (b x : Expr) : String :=
  match x with
  | rat q =>
    if q = -1 then "1/" ++ operandText text b
    else if q < 0 then "1/" ++ plainPowerText text b (rat (-q))
    else plainPowerText text b x
  | x => plainPowerText text b x

/-! ## Products -/

/-- The texts of the factors above and below the fraction bar, and the sign. -/
structure FractionText where
  negative : Bool
  above : List String
  below : List String

/-- Adds one factor of a product. -/
def FractionText.insert (text : Expr → String) (t : FractionText) : Expr → FractionText
  | rat q =>
    { negative := t.negative != decide (q < 0)
      above := if q.num.natAbs = 1 then t.above else t.above ++ [toString q.num.natAbs]
      below := if q.den = 1 then t.below else t.below ++ [toString q.den] }
  | pow b (rat q) =>
    if q = -1 then { t with below := t.below ++ [factorText text b] }
    else if q < 0 then { t with below := t.below ++ [plainPowerText text b (rat (-q))] }
    else { t with above := t.above ++ [text (pow b (rat q))] }
  | x => { t with above := t.above ++ [factorText text x] }

/-- A product with its factors gathered above and below the fraction bar. -/
def productText (text : Expr → String) (fs : List Expr) : String :=
  let t := fs.foldl (FractionText.insert text) ⟨false, [], []⟩
  let above := if t.above = [] then "1" else String.intercalate "*" t.above
  let below :=
    match t.below with
    | [] => ""
    | [s] => "/" ++ s
    | ss => "/" ++ inParens (String.intercalate "*" ss)
  (if t.negative then "-" else "") ++ above ++ below

/-! ## Sums -/

/-- The terms in the order of writing: the first term without a minus sign goes to the front. -/
def termOrder (ts : List Expr) : List Expr :=
  match ts.dropWhile hasMinus with
  | [] => ts
  | t :: rest => t :: (ts.takeWhile hasMinus ++ rest)

/-- A term that is not the first, with its sign. -/
def laterTermText (text : Expr → String) (t : Expr) : String :=
  if t.hasMinus then " - " ++ text (-t) else " + " ++ text t

/-- A sum. -/
def sumText (text : Expr → String) (ts : List Expr) : String :=
  match termOrder ts with
  | [] => ""
  | t :: rest => text t ++ String.join (rest.map (laterTermText text))

/-! ## All expressions -/

/-- The text of an expression, down to a number of levels. -/
def textWithin : Nat → Expr → String
  | 0, _ => ""
  | n + 1, x =>
    match x with
    | rat q => Rational.text q
    | pi => "pi"
    | e => "E"
    | i => "I"
    | infinity => "oo"
    | undefined => "nan"
    | var s => s
    | add ts => sumText (textWithin n) ts
    | mul fs => productText (textWithin n) fs
    | pow b y => powerText (textWithin n) b y
    | fn f y => f.name ++ inParens (textWithin n y)

/-- The text of an expression. -/
def text (x : Expr) : String := textWithin (2 * x.size + 8) x

end SymbolicSolver.Expr
