import SymbolicSolver.Number.Root

/-!
# Rational numbers

The few operations on exact rationals that the library needs beyond the field operations: reduction
modulo a period, integer powers, size in bits, the text form and the nearest float.
-/

namespace SymbolicSolver.Rational

/-- The remainder of `c` modulo a positive whole period, in `[0, period)`. A period that is not positive
leaves `c` alone. -/
def reduceMod (c : Rat) (period : Int) : Rat :=
  if period ≤ 0 then c
  else mkRat (c.num.emod (period * c.den)) c.den

/-- An integer power; a negative exponent inverts. -/
def power (b : Rat) (n : Int) : Rat :=
  if n < 0 then (b ^ n.natAbs)⁻¹ else b ^ n.natAbs

/-- The size of a rational: the binary digits of its two components together. -/
def bits (q : Rat) : Nat :=
  bitLength q.num.natAbs + bitLength q.den

/-- Lowest terms, with the denominator left out when it is one. -/
def text (q : Rat) : String :=
  if q.den = 1 then toString q.num else toString q.num ++ "/" ++ toString q.den

/-- The float of a rational: the quotient of the floats of its components. Components that no finite
float holds are first shifted right together, until the larger has a thousand bits. -/
def toFloat (q : Rat) : Float :=
  let a := Float.ofInt q.num
  let b := Float.ofNat q.den
  if a.isFinite && b.isFinite then a / b
  else
    let shift := max (bitLength q.num.natAbs) (bitLength q.den) - 1000
    Float.ofInt (q.num.shiftRight shift) / Float.ofNat (q.den >>> shift)

/-- Whether a rational is a whole number. -/
def isInt (q : Rat) : Bool := q.den == 1

end SymbolicSolver.Rational
