import SymbolicSolver.Expr.Evaluate
import SymbolicSolver.Expr.Order
import SymbolicSolver.Expr.Parts

/-!
# Canonical sums, products and powers

The functions that build sums, products and powers, each keeping the value of what it builds and bringing
the tree into a canonical form, so that equality of trees is the equality that the rest of the library
works with.

* `sum` flattens, adds up the rationals, collects terms that differ in their coefficient only, and lets
  infinities absorb what is finite.
* `product` flattens, multiplies the rationals, collects the exponents of each base, and spreads a
  coefficient over a lone sum.
* `power` computes rational powers exactly, takes perfect powers out of roots, and multiplies the
  exponents of nested powers where that is right.

A product rebuilds the powers of its bases, and a power of a product is a product of powers, so the two
call each other. `productStep` and `powerStep` say what each does in terms of the two; the knot is tied by a
number of rounds that grows with the size of the operands. In the last round a power stands unevaluated unless
zero or one decide it, and a product that would start a further one only multiplies the rationals.
-/

namespace SymbolicSolver.Expr

/-! ## Sums -/

/-- Puts the terms of inner sums in place of the sums. -/
def flattenTerms : List Expr → List Expr
  | [] => []
  | add ys :: xs => flattenTerms ys ++ flattenTerms xs
  | x :: xs => x :: flattenTerms xs

/-- Adds `c` times `rest` to a list of terms with pairwise different rests, in order of first appearance. -/
def collectTerm (rest : Expr) (c : Rat) : List (Expr × Rat) → List (Expr × Rat)
  | [] => [(rest, c)]
  | (r, d) :: gs => if r = rest then (r, d + c) :: gs else (r, d) :: collectTerm rest c gs

/-- The parts of a sum: its rational part, whether it has a positive or a negative infinity, and the
collected remaining terms. -/
structure TermGroups where
  constant : Rat
  hasPosInfinity : Bool
  hasNegInfinity : Bool
  groups : List (Expr × Rat)

namespace TermGroups

def empty : TermGroups := ⟨0, false, false, []⟩

/-- Adds one term. -/
def insert (g : TermGroups) (t : Expr) : TermGroups :=
  match t with
  | rat q => { g with constant := g.constant + q }
  | t =>
    match t.infinitySign? with
    | some s => if 0 < s then { g with hasPosInfinity := true } else { g with hasNegInfinity := true }
    | none => { g with groups := collectTerm t.splitCoeff.2 t.splitCoeff.1 g.groups }

end TermGroups

/-- Puts a coefficient before an expression. -/
def withCoeff (c : Rat) (rest : Expr) : Expr :=
  if rest.isOne then rat c
  else if c = 1 then rest
  else match rest with
    | mul fs => mul (rat c :: fs)
    | x => mul [rat c, x]

/-- The expression for a list of terms: none is zero, one stands for itself, several are sorted. -/
def ofTerms : List Expr → Expr
  | [] => zero
  | [t] => t
  | ts => add (sortTerms ts)

/-- The canonical sum. Infinities of both signs have no sum. -/
def sum (terms : List Expr) : Expr :=
  let flat := flattenTerms terms
  if flat.any (· = undefined) then undefined
  else
    let parts := flat.foldl TermGroups.insert TermGroups.empty
    let ts := (parts.groups.filter fun g => g.2 ≠ 0).map fun g => withCoeff g.2 g.1
    if parts.hasPosInfinity && parts.hasNegInfinity then undefined
    else if parts.hasPosInfinity || parts.hasNegInfinity then
      let inf := if parts.hasPosInfinity then infinity else negInfinity
      if ts.all fun t => t.isConstant && t.isFinite then inf else ofTerms (ts ++ [inf])
    else if parts.constant ≠ 0 then ofTerms (ts ++ [rat parts.constant])
    else ofTerms ts

/-! ## Rational powers -/

/-- The largest whole exponent with which a rational power is computed. -/
def maxExponent : Int := 4096

/-- The largest size in bits of a rational power that is computed. -/
def maxPowerBits : Nat := 65536

/-- The largest index of a root that is looked into. -/
def maxRootIndex : Nat := 64

/-- The power of `i` with a whole exponent, which depends on its remainder modulo four. -/
def iPower (n : Int) : Expr :=
  match n.emod 4 with
  | 0 => one
  | 1 => i
  | 2 => rat (-1)
  | _ => mul [rat (-1), i]

/-- Whether the whole power `b ^ n` stays within the limits on exponent and size. -/
def powerFits (b : Rat) (n : Int) : Bool :=
  fitsWord n && n.natAbs ≤ maxExponent.natAbs && Rational.bits b * n.natAbs ≤ maxPowerBits

/-- `n ^ (p / q)` for a natural base and `0 < p < q`, as a coefficient and at most one power: nothing is
left of a perfect power, and of a plain root the perfect part is taken out. -/
def radical (n p q : Nat) : Rat × List Expr :=
  if n = 1 then (1, [])
  else
    match exactRoot? q n with
    | some s => ((s.pow p : Nat), [])
    | none =>
      if p = 1 then
        let parts := extractPower q n
        (parts.1, [pow (rat parts.2) (rat (mkRat p q))])
      else (1, [pow (rat n) (rat (mkRat p q))])

/-- A positive rational to a fractional power: the whole part of the exponent is computed, the roots of
numerator and denominator are taken apart, and no root stays in a denominator. -/
def positiveRoot (b x : Rat) : Expr :=
  let k := x.floor
  if !powerFits b k then pow (rat b) (rat x)
  else
    let p := (x - k).num.natAbs
    let q := x.den
    let top := radical b.num.natAbs p q
    let bottom := radical b.den (q - p) q
    let c := Rational.power b k * top.1 * (bottom.1 / b.den)
    let fs := sortFactors (top.2 ++ bottom.2)
    if c = 1 then
      match fs with
      | [] => one
      | [f] => f
      | fs => mul fs
    else
      match fs with
      | [] => rat c
      | fs => mul (rat c :: fs)

/-- A rational to a rational power. What is out of the limits stands unevaluated, and so do the roots of
negative numbers other than square roots. -/
def rationalPower (product : List Expr → Expr) (b x : Rat) : Expr :=
  if b = 0 then (if 0 < x then zero else undefined)
  else if x.den = 1 then
    if powerFits b x.num then rat (Rational.power b x.num) else pow (rat b) (rat x)
  else if maxRootIndex < x.den then pow (rat b) (rat x)
  else if b < 0 then
    if x.den = 2 then product [iPower x.num, positiveRoot (-b) x] else pow (rat b) (rat x)
  else positiveRoot b x

/-! ## Infinite powers -/

/-- A constant real base to an infinite exponent, decided by where the base lies among `-1`, `0` and `1`. -/
def infinitePower (b x : Expr) (sign : Int) : Expr :=
  let kept := pow b x
  if !b.isConstant then kept
  else
    match b.evaluateConstant with
    | .error _ => kept
    | .ok z =>
      if z.im != 0 then kept
      else
        let r := z.re
        if 0 < sign then
          if r > 1 then infinity
          else if r.abs < 1 then zero
          else if r <= -1 then undefined
          else kept
        else if r > 1 then zero
        else if r > 0 && r < 1 then infinity
        else if r <= 0 then undefined
        else kept

/-- An infinite base to a constant exponent, decided by the sign of the exponent. -/
def infiniteBase (b x : Expr) (sign : Int) : Expr :=
  match x.constantSign? with
  | some 1 =>
    if 0 < sign then infinity
    else match x.smallInt? with
      | some n => if n.emod 2 = 0 then infinity else negInfinity
      | none => pow b x
  | some (-1) => zero
  | _ => pow b x

/-! ## Powers -/

/-- Whether a base is known to be positive. -/
def isPositiveBase : Expr → Bool
  | rat q => 0 < q
  | e => true
  | pi => true
  | b => b.isConstant && b.constantSign? = some 1

/-- A power whose exponent is neither zero nor one and whose operands are finite, by the form of the base. -/
def powerOfBase (power : Expr → Expr → Expr) (product : List Expr → Expr) (b x : Expr) : Expr :=
  match b with
  | pow b0 x0 =>
    if x.isInteger || b0.isPositiveBase then power b0 (product [x0, x]) else pow b x
  | mul fs =>
    if x.isInteger then product (fs.map fun f => power f x)
    else
      match fs with
      | rat c :: rest =>
        if 0 < c then product [power (rat c) x, pow (ofFactors rest) x] else pow b x
      | _ => pow b x
  | b => pow b x

/-- What a power is, in terms of smaller powers and products. -/
def powerStep (power : Expr → Expr → Expr) (product : List Expr → Expr) (b x : Expr) : Expr :=
  if b = undefined ∨ x = undefined then undefined
  else if x.isZero then one
  else if x.isOne then b
  else if b.isOne then (if x.isFinite then one else undefined)
  else
    match x.infinitySign?, b.infinitySign? with
    | some s, _ => infinitePower b x s
    | none, some s => infiniteBase b x s
    | none, none =>
      match b, x with
      | rat p, rat q => rationalPower product p q
      | i, rat q => if Rational.isInt q then iPower q.num else powerOfBase power product i (rat q)
      | e, fn .log u => u
      | e, mul [rat c, fn .log u] => power u (rat c)
      | b, x => powerOfBase power product b x

/-! ## Products -/

/-- Puts the factors of inner products in place of the products. -/
def flattenFactors : List Expr → List Expr
  | [] => []
  | mul ys :: xs => flattenFactors ys ++ flattenFactors xs
  | x :: xs => x :: flattenFactors xs

/-- Multiplies a list of powers with pairwise different bases by one more power. -/
def collectBase (b x : Expr) : List (Expr × Expr) → List (Expr × Expr)
  | [] => [(b, x)]
  | (c, y) :: gs => if c = b then (c, sum [y, x]) :: gs else (c, y) :: collectBase b x gs

/-- The parts of a product: its coefficient, whether it has an infinite factor, and other factors of the
kind `α`, in order of first appearance. -/
structure FactorGroups (α : Type) where
  coeff : Rat
  hasInfinity : Bool
  others : List α

/-- Adds one factor to the collected bases. -/
def FactorGroups.insertBase (g : FactorGroups (Expr × Expr)) : Expr → FactorGroups (Expr × Expr)
  | rat q => { g with coeff := g.coeff * q }
  | infinity => { g with hasInfinity := true }
  | pow b x => { g with others := collectBase b x g.others }
  | f => { g with others := collectBase f one g.others }

/-- Adds one rebuilt factor. -/
def FactorGroups.insertFactor (g : FactorGroups Expr) : Expr → FactorGroups Expr
  | rat q => { g with coeff := g.coeff * q }
  | infinity => { g with hasInfinity := true }
  | f => { g with others := g.others ++ [f] }

/-- The product of sorted factors with a coefficient in front and possibly infinity behind. -/
def assemble (c : Rat) (fs : List Expr) (hasInfinity : Bool) : Expr :=
  let fs := sortFactors fs ++ (if hasInfinity then [infinity] else [])
  ofFactors (if c ≠ 1 ∨ fs = [] then rat c :: fs else fs)

/-- An infinite product: a constant rest of known sign decides, and an unknown rest keeps the sign of the
coefficient. -/
def infiniteProduct (c : Rat) (fs : List Expr) : Expr :=
  let unit : Int := if c < 0 then -1 else 1
  let restSign := if fs.all isConstant then (mul fs).constantSign? else none
  match restSign with
  | some s =>
    if s = 0 then undefined
    else if 0 < s * unit then infinity
    else negInfinity
  | none => assemble unit fs true

/-- The flat factors of a product, with the exponents of each base collected. -/
def collectBases (flat : List Expr) : FactorGroups (Expr × Expr) :=
  flat.foldl FactorGroups.insertBase ⟨1, false, []⟩

/-- Rebuilt powers, with the coefficient and the infinity that were set aside; rationals among the powers join
the coefficient. -/
def collectRebuilt (c : Rat) (hasInfinity : Bool) (rebuilt : List Expr) : FactorGroups Expr :=
  rebuilt.foldl FactorGroups.insertFactor ⟨c, hasInfinity, []⟩

/-- What collected factors multiply to. A product among them starts a further product, and a coefficient spreads
over a sum that is the only other factor. -/
def multiplyOut (product : List Expr → Expr) (parts : FactorGroups Expr) : Expr :=
  if parts.coeff = 0 then (if parts.hasInfinity then undefined else zero)
  else if parts.others.any isProduct then
    product (parts.others ++ rat parts.coeff :: (if parts.hasInfinity then [infinity] else []))
  else if parts.hasInfinity then infiniteProduct parts.coeff parts.others
  else
    match parts.others with
    | [add ts] =>
      if parts.coeff = 1 then add ts
      else sum (ts.map fun t => product [rat parts.coeff, t])
    | fs => assemble parts.coeff fs false

/-- What a product is, in terms of powers and further products. -/
def productStep (power : Expr → Expr → Expr) (product : List Expr → Expr) (factors : List Expr) :
    Expr :=
  let flat := flattenFactors factors
  if flat.any (· = undefined) then undefined
  else
    let bases := collectBases flat
    let rebuilt := bases.others.map fun g => power g.1 g.2
    if rebuilt.any (· = undefined) then undefined
    else multiplyOut product (collectRebuilt bases.coeff bases.hasInfinity rebuilt)

/-! ## Tying the knot -/

/-- The power that stands unevaluated unless zero or one decide it. -/
def plainPower (b x : Expr) : Expr :=
  if b = undefined ∨ x = undefined then undefined
  else if x.isZero then one
  else if x.isOne then b
  else if b.isOne then (if x.isFinite then one else undefined)
  else pow b x

/-- The product that multiplies the rationals and rebuilds no power. -/
def plainProduct (factors : List Expr) : Expr :=
  let parts := collectRebuilt 1 false (flattenFactors factors)
  assemble parts.coeff parts.others parts.hasInfinity

mutual

/-- The product within a number of rounds. -/
def productWithin : Nat → List Expr → Expr
  | 0, fs => productStep plainPower plainProduct fs
  | n + 1, fs => productStep (powerWithin n) (productWithin n) fs

/-- The power within a number of rounds. -/
def powerWithin : Nat → Expr → Expr → Expr
  | 0, b, x => plainPower b x
  | n + 1, b, x => powerStep (powerWithin n) (productWithin n) b x

end

/-- A number of rounds that covers every restart on operands of the given size. -/
def roundsFor (size : Nat) : Nat := 1 <<< (2 * size + 4) + 4

theorem roundsFor_eq (size : Nat) : ∃ k, roundsFor size = k + 4 := ⟨1 <<< (2 * size + 4), rfl⟩

/-- The canonical product. -/
def product (factors : List Expr) : Expr :=
  productWithin (roundsFor (sizeAll factors)) factors

/-- The canonical power. -/
def power (b x : Expr) : Expr :=
  powerWithin (roundsFor (b.size + x.size)) b x

/-! ## Short forms -/

/-- The square root. -/
def sqrt (x : Expr) : Expr := power x half

/-- The exponential. -/
def exp (x : Expr) : Expr := power e x

/-- The reciprocal. -/
def inverse (x : Expr) : Expr := power x (rat (-1))

/-- The negative. -/
def negate (x : Expr) : Expr := product [rat (-1), x]

instance : Add Expr := ⟨fun a b => sum [a, b]⟩
instance : Neg Expr := ⟨negate⟩
instance : Sub Expr := ⟨fun a b => sum [a, -b]⟩
instance : Mul Expr := ⟨fun a b => product [a, b]⟩
instance : Div Expr := ⟨fun a b => product [a, b.inverse]⟩

end SymbolicSolver.Expr
