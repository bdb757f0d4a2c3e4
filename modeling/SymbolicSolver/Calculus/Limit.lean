import SymbolicSolver.Calculus.Derivative
import SymbolicSolver.Simplify.Basic

/-!
# Limits

Limits at a point, from the right where the point is finite. A limit at infinity becomes one at zero.
Otherwise the value at the point is taken if it is defined; then the limits of the parts are combined; a
quotient goes by L'Hôpital's rule; and the last resort is a numeric estimate that is recognised as a simple
rational or as an infinity.
-/

namespace SymbolicSolver.Expr

/-- Whether an expression is a usable limit: an infinity, or finite and, if constant, with a numeric
value. -/
def isDefined (x : Expr) : Bool :=
  if x.contains undefined then false
  else if x.infinitySign?.isSome then true
  else if !x.isFinite then false
  else !x.isConstant || x.evaluateConstant.isOk

/-- The expression, if it is a usable limit. -/
def defined? (x : Expr) : Option Expr := if x.isDefined then some x else none

/-! ## Numeric estimates -/

/-- The real value of a point. -/
def pointValue? (point : Expr) : Option Float :=
  match point.evaluateConstant with
  | .ok z => if z.im == 0 then some z.re else none
  | .error _ => none

/-- The value a relative distance to the right of a point. -/
def valueRightOf? (x : Expr) (name : String) (point h : Float) : Option Float :=
  x.evaluateAt? name (point + h * (1 + point.abs))

/-- The sign just to the right of a point. -/
def signRightOf? (x : Expr) (name : String) (point : Expr) : Option Int :=
  (pointValue? point).bind fun x0 =>
    (valueRightOf? x name x0 1e-6).bind fun v =>
      if v > 0 then some 1 else if v < 0 then some (-1) else none

/-- The infinity of a sign. -/
def infinityOf (positive : Bool) : Expr := if positive then infinity else negInfinity

/-- The first rational `p / q` within the tolerance, with `q` from the given one on. -/
def nearbyRational? (v : Float) : List Nat → Option Expr
  | [] => none
  | q :: qs =>
    let f := Float.ofNat q
    let p := (v * f).round
    if (v - p / f).abs < 1e-5 && p.abs < 1e12 then some (rat (mkRat p.toInt64.toInt q))
    else nearbyRational? v qs

/-- A rational with a denominator of at most twelve that is close to a float. -/
def recognise? (v : Float) : Option Expr :=
  if v.isFinite then nearbyRational? v (List.range' 1 12) else none

/-- The estimate from the last two values on the way to the point: an infinity when they grow beyond a
million with one sign, and otherwise a nearby rational when they agree. -/
def estimate? (before last : Float) : Option Expr :=
  if last.abs > 1e6 && last.abs > before.abs
      && Decimal.isNegative last == Decimal.isNegative before then
    some (infinityOf (last > 0))
  else if (last - before).abs > 1e-4 * (1 + last.abs) then none
  else recognise? last

/-- The limit estimated from values at four shrinking distances. -/
def numericLimit? (x : Expr) (name : String) (point : Expr) : Option Expr :=
  (pointValue? point).bind fun x0 =>
    match [1e-4, 1e-5, 1e-6, 1e-7].mapM (valueRightOf? x name x0) with
    | some [_, _, before, last] => estimate? before last
    | _ => none

/-! ## Rules -/

/-- A rule that finds limits at a point. -/
abbrev LimitRule := Expr → String → Expr → Option Expr

/-- Combines the limits of the parts, if the result is defined. -/
def combineLimits? (limit : Expr → Option Expr) (xs : List Expr) (build : List Expr → Expr) :
    Option Expr :=
  (xs.mapM limit).bind fun ls => (build ls).defined?

/-- The limit of a quotient: L'Hôpital's rule for `0/0` and `∞/∞`, a signed infinity for a vanishing
denominator, and else the quotient of the limits. -/
def quotientLimit? (deeper : LimitRule) (n d : Expr) (name : String) (point : Expr) : Option Expr :=
  match deeper n name point, deeper d name point with
  | some ln, some ld =>
    if (ln.isZero && ld.isZero) || (ln.infinitySign?.isSome && ld.infinitySign?.isSome) then
      deeper (derivative name n / derivative name d).simplify name point
    else if ld.isZero then
      (signRightOf? (n / d) name point).map fun s => infinityOf (0 < s)
    else (ln / ld).defined?
  | _, _ => none

/-- The limit by the form of the expression: powers by their logarithm, functions by their argument, sums term
by term. -/
def limitByForm? (deeper : LimitRule) (x : Expr) (name : String) (point : Expr) : Option Expr :=
  match x with
  | pow b y =>
    if y.hasVar name then
      let log := if b = e then y else y * apply .log b
      (deeper log name point).bind fun l => (exp l).defined?
    else none
  | fn f u => (deeper u name point).bind fun l => (apply f l).defined?
  | add ts => combineLimits? (fun t => deeper t name point) ts sum
  | _ => none

/-- The limit of an expression with a denominator as a quotient. -/
def limitAsFraction? (deeper : LimitRule) (x : Expr) (name : String) (point : Expr) : Option Expr :=
  let f := x.toFraction
  if f.den.isOne then none else quotientLimit? deeper f.num f.den name point

/-- The limit of a product: factor by factor, or with an infinite factor `g` and the rest `f` as `g / (1/f)` or
`f / (1/g)`. -/
def productLimit? (deeper : LimitRule) (x : Expr) (name : String) (point : Expr) : Option Expr :=
  match x with
  | mul fs =>
    (combineLimits? (fun t => deeper t name point) fs product).or <|
      (splits fs).findSome? fun s =>
        let g := s.2.1
        match (deeper g name point).bind infinitySign? with
        | none => none
        | some _ =>
          let f := product (s.1 ++ s.2.2)
          (quotientLimit? deeper g f.inverse name point).or
            (quotientLimit? deeper f g.inverse name point)
  | _ => none

/-- The largest number of rules that may take limits inside one another. -/
def limitLevels : Nat := 9

/-- The limit at a level, with a given number of levels left. -/
def limitAt? : Nat → Nat → LimitRule
  | 0, _, _, _, _ => none
  | n + 1, level, x, name, point =>
    let deeper := limitAt? n (level + 1)
    if !x.hasVar name then some x
    else
      match point.infinitySign? with
      | some s =>
        let t := "_t" ++ toString level
        deeper (x.subst name (int s / var t)) t zero
      | none =>
        (x.subst name point).defined?.or <|
          (limitByForm? deeper x name point).or <|
            (limitAsFraction? deeper x name point).or <|
              (productLimit? deeper x name point).or <|
                numericLimit? x name point

/-- The limit of an expression as a variable tends to a point. -/
def limit (x : Expr) (name : String) (point : Expr) : Except Error Expr :=
  match limitAt? limitLevels 0 x name point with
  | some l => .ok l
  | none => .error .indeterminateLimit

end SymbolicSolver.Expr
