import Mathlib.Algebra.BigOperators.Group.List.Basic
import Mathlib.Algebra.Field.Rat
import Mathlib.Data.Nat.Log
import Mathlib.Data.Rat.Lemmas
import SymbolicSolver.Number.Rational

/-!
# Sizes in bits

A product has at most as many binary digits as its factors together, and a divisor no more than what it divides. The
same bounds hold for quotients of rationals and for products of denominators.
-/

namespace SymbolicSolver

/-! ## Naturals -/

theorem bitLength_le_iff {n k : Nat} : bitLength n ≤ k ↔ n < 2 ^ k := by
  unfold bitLength
  split
  · rename_i h
    simp [h, Nat.two_pow_pos]
  · rename_i h
    rw [Nat.succ_le_iff, Nat.log2_lt h]

theorem lt_two_pow_bitLength (n : Nat) : n < 2 ^ bitLength n := bitLength_le_iff.1 le_rfl

theorem bitLength_mono {m n : Nat} (h : m ≤ n) : bitLength m ≤ bitLength n :=
  bitLength_le_iff.2 (h.trans_lt (lt_two_pow_bitLength n))

theorem bitLength_mul_le (m n : Nat) : bitLength (m * n) ≤ bitLength m + bitLength n := by
  rw [bitLength_le_iff, pow_add]
  exact Nat.mul_lt_mul'' (lt_two_pow_bitLength m) (lt_two_pow_bitLength n)

theorem bitLength_of_dvd {m n : Nat} (hn : n ≠ 0) (h : m ∣ n) : bitLength m ≤ bitLength n :=
  bitLength_mono (Nat.le_of_dvd (Nat.pos_of_ne_zero hn) h)

theorem bitLength_prod_le (ns : List Nat) : bitLength ns.prod ≤ (ns.map bitLength).sum + 1 := by
  induction ns with
  | nil => decide
  | cons n ns ih =>
    have hmul := bitLength_mul_le n ns.prod
    rw [List.prod_cons, List.map_cons, List.sum_cons]
    omega

/-! ## Rationals -/

namespace Rational

theorem bits_natCast (n : Nat) : bits n = bitLength n + 1 := by
  rw [bits, Rat.num_natCast, Rat.den_natCast, Int.natAbs_natCast]
  rfl

theorem bits_neg (q : Rat) : bits (-q) = bits q := by
  simp [bits]

theorem bitLength_den_le (q : Rat) : bitLength q.den ≤ bits q := Nat.le_add_left _ _

/-- The size of a quotient is at most that of its two sides together. -/
theorem bits_div_le (a b : Rat) : bits (a / b) ≤ bits a + bits b := by
  by_cases ha : a = 0
  · rw [ha, zero_div]
    exact Nat.le_add_right _ _
  by_cases hb : b = 0
  · rw [hb, div_zero]
    exact Nat.le_add_left _ _
  have hden : (a.den : Int) * b.num ≠ 0 :=
    mul_ne_zero (Int.natCast_ne_zero.2 a.den_nz) (Rat.num_ne_zero.2 hb)
  have hnum : a.num * b.den ≠ 0 :=
    mul_ne_zero (Rat.num_ne_zero.2 ha) (Int.natCast_ne_zero.2 b.den_nz)
  have hdvdnum : (a / b).num.natAbs ∣ a.num.natAbs * b.den := by
    have h := Int.natAbs_dvd_natAbs.2 (Rat.num_dvd (a.num * b.den) hden)
    rwa [← Rat.div_def', Int.natAbs_mul, Int.natAbs_natCast] at h
  have hdvdden : (a / b).den ∣ a.den * b.num.natAbs := by
    have h := Int.natAbs_dvd_natAbs.2 (Rat.den_dvd (a.num * b.den) (a.den * b.num))
    rwa [← Rat.div_def', Int.natAbs_mul, Int.natAbs_natCast, Int.natAbs_natCast] at h
  have hlenum := bitLength_of_dvd (by simpa [Int.natAbs_mul] using Int.natAbs_ne_zero.2 hnum) hdvdnum
  have hleden := bitLength_of_dvd (by simpa [Int.natAbs_mul] using Int.natAbs_ne_zero.2 hden) hdvdden
  have hmulnum := bitLength_mul_le a.num.natAbs b.den
  have hmulden := bitLength_mul_le a.den b.num.natAbs
  unfold bits
  omega

end Rational

end SymbolicSolver
