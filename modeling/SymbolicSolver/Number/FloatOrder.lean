import SymbolicSolver.Number.Decimal

/-!
# A total order of floats

Floats in the order of their numeric values, with `-0.0` below `0.0` and a place for every bit pattern.
-/

namespace SymbolicSolver

/-- The place of a float in the total order, read off its bit pattern. -/
def floatPlace (v : Float) : Int :=
  let bits := v.toBits.toNat
  if bits < Decimal.twoPow 63 then bits else -((bits - Decimal.twoPow 63 : Nat) : Int) - 1

/-- Compares floats in the total order. -/
def compareFloat (a b : Float) : Ordering := compare (floatPlace a) (floatPlace b)

end SymbolicSolver
