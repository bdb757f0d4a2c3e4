import SymbolicSolver.Proofs.Polynomial.PartialFraction
import SymbolicSolver.Proofs.Polynomial.RoundTrip

/-!
# The greatest common divisor

Euclid's algorithm goes from a pair of polynomials to the second one and the remainder of the first. A step keeps the
common divisors of the pair and shortens its second part, so zero is reached, and what stands beside it is divided by
exactly the common divisors. Made monic it is the greatest common divisor.
-/

namespace SymbolicSolver.RatPoly

open Polynomial

/-! ## Divisors -/

/-- Some multiple of `d` is `p`. -/
def Divides (d p : RatPoly) : Prop := ∃ q : RatPoly, p = q.mul d

variable {a b d p : RatPoly}

theorem eq_zero_of_isZero (h : p.isZero = true) : p = zero :=
  toPoly_injective ((toPoly_eq_zero h).trans (toPoly_eq_zero (p := zero) rfl).symm)

/-- A division by a divisor ends with the remainder zero. -/
theorem divMod_snd_of_dvd (hd : d.isZero = false) (h : d.toPoly ∣ p.toPoly) : (p.divMod d).2 = zero := by
  obtain ⟨hdiv, -⟩ := divMod_spec p hd
  refine toPoly_injective ?_
  rw [toPoly_eq_zero (p := zero) rfl]
  exact left_eq_add.1 ((divMod_of_dvd hd h).symm.trans hdiv)

/-- Divisors of coefficient lists are divisors of the polynomials that they denote. -/
theorem divides_iff : Divides d p ↔ d.toPoly ∣ p.toPoly := by
  constructor
  · rintro ⟨q, rfl⟩
    exact ⟨q.toPoly, by rw [toPoly_mul, mul_comm]⟩
  · intro h
    cases hd : d.isZero with
    | true =>
      rw [toPoly_eq_zero hd, zero_dvd_iff] at h
      exact ⟨zero, toPoly_injective (by rw [toPoly_mul, toPoly_eq_zero hd, mul_zero, h])⟩
    | false => exact ⟨(p.divMod d).1, toPoly_injective (by rw [toPoly_mul, ← divMod_of_dvd hd h])⟩

theorem divides_monic : Divides d p.monic ↔ Divides d p := by
  rw [divides_iff, divides_iff, toPoly_monic]
  cases hp : p.isZero with
  | true => rw [toPoly_eq_zero hp, mul_zero]
  | false =>
    have hunit : IsUnit (C p.lead⁻¹) := isUnit_C.2 (inv_ne_zero (getLast?_coeffs hp).2).isUnit
    exact hunit.dvd_mul_left

/-! ## Euclid's algorithm -/

/-- The pair that Euclid's algorithm goes on with. -/
def euclidStep (s : RatPoly × RatPoly) : RatPoly × RatPoly := (s.2, (s.1.divMod s.2).2)

/-- A step keeps the common divisors. -/
theorem divides_euclidStep (hb : b.isZero = false) :
    Divides d (euclidStep (a, b)).1 ∧ Divides d (euclidStep (a, b)).2 ↔ Divides d a ∧ Divides d b := by
  simp only [euclidStep, divides_iff]
  rw [and_comm, and_congr_left_iff]
  intro hdvd
  conv_rhs => rw [(divMod_spec a hb).1]
  exact (dvd_add_right (hdvd.mul_left _)).symm

/-- The steps go on as long as the second polynomial is not zero, at most once for each of its coefficients at the
start, and the result stands beside zero. -/
theorem euclid_run (a b : RatPoly) : ∃ n ≤ b.coeffs.length,
    (∀ m < n, (euclidStep^[m] (a, b)).2.isZero = false) ∧ euclidStep^[n] (a, b) = (euclid a b, zero) := by
  fun_induction euclid a b with
  | case1 a b hb ih =>
    obtain ⟨n, hn, hrun, hend⟩ := ih
    have hshort := length_divMod_snd a b hb
    refine ⟨n + 1, by omega, fun m hm => ?_, hend⟩
    cases m with
    | zero => exact hb
    | succ m => exact hrun m (by omega)
  | case2 a b hb =>
    obtain rfl := eq_zero_of_isZero (p := b) (by simpa using hb)
    exact ⟨0, Nat.zero_le _, fun m hm => absurd hm (Nat.not_lt_zero m), rfl⟩

/-- The divisors of the result are the common divisors of the operands. -/
theorem divides_euclid (a b : RatPoly) : Divides d (euclid a b) ↔ Divides d a ∧ Divides d b := by
  fun_induction euclid a b with
  | case1 a b hb ih => exact ih.trans (divides_euclidStep hb)
  | case2 a b hb =>
    have hzero : Divides d b := divides_iff.2 (by rw [toPoly_eq_zero (p := b) (by simpa using hb)]; exact dvd_zero _)
    exact ⟨fun h => ⟨h, hzero⟩, And.left⟩

theorem divides_gcd (a b : RatPoly) : Divides d (a.gcd b) ↔ Divides d a ∧ Divides d b :=
  divides_monic.trans (divides_euclid a b)

theorem euclid_eq_zero : euclid a b = zero ↔ a = zero ∧ b = zero := by
  have hzero (p : RatPoly) : Divides zero p ↔ p = zero := by
    rw [divides_iff, toPoly_eq_zero (p := zero) rfl, zero_dvd_iff]
    exact ⟨fun h => toPoly_injective (h.trans (toPoly_eq_zero (p := zero) rfl).symm),
      fun h => h ▸ toPoly_eq_zero (p := zero) rfl⟩
  rw [← hzero, divides_euclid, hzero, hzero]

/-- Euclid's algorithm reaches zero. The greatest common divisor of two zeros is zero; any other is monic, divides both
operands without remainder, and every common divisor divides it. -/
theorem gcd_greatest (a b : RatPoly) :
    (∃ n ≤ b.coeffs.length, (∀ m < n, (euclidStep^[m] (a, b)).2.isZero = false) ∧
      (euclidStep^[n] (a, b)).2 = zero ∧ a.gcd b = (euclidStep^[n] (a, b)).1.monic) ∧
    if a = zero ∧ b = zero then a.gcd b = zero
    else (a.gcd b).lead = 1 ∧ (a.divMod (a.gcd b)).2 = zero ∧ (b.divMod (a.gcd b)).2 = zero ∧
      ∀ d, Divides d (a.gcd b) ↔ Divides d a ∧ Divides d b := by
  refine ⟨?_, ?_⟩
  · obtain ⟨n, hn, hrun, hend⟩ := euclid_run a b
    exact ⟨n, hn, hrun, by rw [hend], by rw [hend]; rfl⟩
  split
  · rename_i h
    rw [gcd, euclid_eq_zero.2 h]
    rfl
  · rename_i h
    have hresult : (euclid a b).isZero = false := by
      rw [← Bool.not_eq_true]
      exact fun hz => h (euclid_eq_zero.1 (eq_zero_of_isZero hz))
    have hgcd : (a.gcd b).isZero = false := isZero_monic hresult
    obtain ⟨ha, hb⟩ := gcd_dvd a b
    exact ⟨lead_monic hresult, divMod_snd_of_dvd hgcd ha, divMod_snd_of_dvd hgcd hb, fun d => divides_gcd a b⟩

/-- `x² - 1` and `x² - 2x + 1` have the greatest common divisor `x - 1`. -/
example : (ofList [-1, 0, 1]).gcd (ofList [1, -2, 1]) = ofList [-1, 1] := by cbv

end SymbolicSolver.RatPoly
