import SymbolicSolver.Number.ComplexFloat

/-!
# Numeric roots

Roots found numerically are rounded to a number of decimal places and kept once: of roots that lie close
together the first one stays.
-/

namespace SymbolicSolver

/-- A root in floating point. -/
inductive NumericRoot where
  | real (x : Float)
  | complex (z : ComplexFloat)

namespace NumericRoot

/-- The root as a complex number. -/
def toComplex : NumericRoot → ComplexFloat
  | real x => ComplexFloat.real x
  | complex z => z

/-- Numbers closer than this are the same root. -/
def separation : Float := 1e-8

/-- Whether two floats are the same root. -/
def closeFloats (a b : Float) : Bool := (a - b).abs < separation

/-- Whether two roots are the same; a real root is never the same as a complex one. -/
def isClose : NumericRoot → NumericRoot → Bool
  | real a, real b => closeFloats a b
  | complex a, complex b => closeFloats a.re b.re && closeFloats a.im b.im
  | _, _ => false

/-! ## Rounding -/

/-- Multiplies `acc` by the `n`-th power of `a`, by repeated squaring. -/
def powerInto (acc a : Float) (n : Nat) : Float :=
  let acc := if n % 2 = 1 then acc * a else acc
  if _h : n / 2 = 0 then acc else powerInto acc (a * a) (n / 2)
termination_by n

/-- A whole power of ten. The exponent is read as a signed word of 32 bits, so very large ones wrap around. -/
def tenToThe (n : Nat) : Float :=
  let e := (Int32.ofNat n).toInt
  let p := powerInto 1 10 e.natAbs
  if e < 0 then 1 / p else p

/-- Rounds to a number of decimal places, halves away from zero; a result out of range is not taken. -/
def roundPlaces (v : Float) (places : Nat) : Float :=
  let scale := tenToThe places
  let r := (v * scale).round / scale
  if r.isFinite then r else v

/-- The rounded form of a root: real where the imaginary part is negligible and only real roots are wanted. -/
def rounded (realOnly : Bool) (tolerance : Float) (places : Nat) (r : NumericRoot) : NumericRoot :=
  let z := r.toComplex
  if realOnly && z.im.abs < tolerance then real (roundPlaces z.re places)
  else complex ⟨roundPlaces z.re places, roundPlaces z.im places⟩

/-- Adds a root to those already kept, unless it is not finite or close to one of them. -/
def keep (realOnly : Bool) (tolerance : Float) (places : Nat) (kept : List NumericRoot)
    (r : NumericRoot) : List NumericRoot :=
  if r.toComplex.isFinite then
    let r := rounded realOnly tolerance places r
    if kept.any fun k => k.isClose r then kept else kept ++ [r]
  else kept

/-- The finite roots, rounded, each once, in order of first appearance. -/
def dedupe (roots : List NumericRoot) (realOnly : Bool) (tolerance : Float) (places : Nat) :
    List NumericRoot :=
  roots.foldl (keep realOnly tolerance places) []

end NumericRoot

end SymbolicSolver
