import Mathlib.Algebra.Polynomial.Coeff
import SymbolicSolver.Proofs.Polynomial.GreatestDivisor

/-!
# Long division

A step of long division takes the multiple of the divisor with the leading term off the rest and puts its factor to the
quotient. A step keeps the sum of quotient times divisor and rest, and makes the rest shorter by one place at least: by
as many as cancel with the leading one. The steps end when the rest is shorter than the divisor, and what they end with
is the quotient and the remainder, since there is one pair of these only.
-/

namespace SymbolicSolver.RatPoly

open Polynomial

variable {p d q r : RatPoly}

/-! ## Lengths -/

theorem coeff_of_length_le {k : Nat} (h : p.coeffs.length ≤ k) : p.coeff k = 0 :=
  List.getD_eq_default _ _ h

theorem coeff_length_sub_one (p : RatPoly) : p.coeff (p.coeffs.length - 1) = p.lead := by
  rw [coeff, lead, List.getD_eq_getElem?_getD, List.getLast?_eq_getElem?]

/-- Where no coefficient is left there are no places. -/
theorem length_le_of_coeff {n : Nat} (h : ∀ k, n ≤ k → p.coeff k = 0) : p.coeffs.length ≤ n := by
  by_contra hlt
  have hp : p.isZero = false := by
    rw [isZero, List.isEmpty_eq_false_iff, ← List.length_pos_iff]
    omega
  refine (getLast?_coeffs hp).2 ?_
  rw [← coeff_length_sub_one]
  exact h _ (by omega)

/-! ## Uniqueness -/

/-- There is one quotient with a remainder shorter than the divisor. -/
theorem division_unique {q' r' : RatPoly} (hd : d.isZero = false) (hr : r.coeffs.length < d.coeffs.length)
    (hr' : r'.coeffs.length < d.coeffs.length)
    (h : q.toPoly * d.toPoly + r.toPoly = q'.toPoly * d.toPoly + r'.toPoly) : q = q' ∧ r = r' := by
  obtain ⟨hlast, hlead⟩ := getLast?_coeffs hd
  have hdiff : r'.toPoly - r.toPoly = (q.toPoly - q'.toPoly) * d.toPoly := by
    linear_combination -h
  have hlt : (r'.toPoly - r.toPoly).degree < d.toPoly.degree :=
    (degree_sub_le _ _).trans_lt
      (max_lt (degree_lt_of_length_lt hlast hlead hr') (degree_lt_of_length_lt hlast hlead hr))
  have hzero : r'.toPoly - r.toPoly = 0 := eq_zero_of_dvd_of_degree_lt (Dvd.intro_left _ hdiff.symm) hlt
  have hquot : q.toPoly - q'.toPoly = 0 :=
    (mul_eq_zero.1 (hdiff.symm.trans hzero)).resolve_right (toPoly_ne_zero hd)
  exact ⟨toPoly_injective (sub_eq_zero.1 hquot), toPoly_injective (sub_eq_zero.1 hzero).symm⟩

/-! ## A step -/

/-- The polynomial `c x^k`. -/
def term (k : Nat) (c : Rat) : RatPoly := ofList (List.replicate k 0 ++ [c])

theorem toPoly_term (k : Nat) (c : Rat) : (term k c).toPoly = X ^ k * C c := by
  have hzeros : polyOf (List.replicate k 0) = 0 := by
    induction k with
    | zero => rfl
    | succ k ih => simp [List.replicate_succ, ih]
  rw [term, toPoly_ofList, polyOf_append, hzeros, List.length_replicate]
  simp

/-- What the leading term of the rest is of that of the divisor. -/
def leadQuotient (d r : RatPoly) : RatPoly := term (r.coeffs.length - d.coeffs.length) (r.lead / d.lead)

/-- The leading term of the rest is divided; the state is the quotient so far and the rest. -/
def cancelLead (d : RatPoly) (s : RatPoly × RatPoly) : RatPoly × RatPoly :=
  (s.1.add (leadQuotient d s.2), s.2.sub ((leadQuotient d s.2).mul d))

theorem cancelLead_sum (d : RatPoly) (s : RatPoly × RatPoly) :
    (cancelLead d s).1.toPoly * d.toPoly + (cancelLead d s).2.toPoly = s.1.toPoly * d.toPoly + s.2.toPoly := by
  rw [cancelLead, toPoly_add, toPoly_sub, toPoly_mul]
  ring

/-- The leading place goes, and nothing comes in above it. -/
theorem length_cancelLead (hd : d.isZero = false) {s : RatPoly × RatPoly}
    (hlen : d.coeffs.length ≤ s.2.coeffs.length) :
    (cancelLead d s).2.coeffs.length < s.2.coeffs.length := by
  obtain ⟨hlast, hlead⟩ := getLast?_coeffs hd
  have hpos : 0 < d.coeffs.length := by
    rw [List.length_pos_iff]
    intro hnil
    rw [hnil] at hlast
    cases hlast
  refine (Nat.le_sub_one_iff_lt (by omega)).1 (length_le_of_coeff fun k hk => ?_)
  have hplace : s.2.coeffs.length - d.coeffs.length ≤ k := by omega
  rw [cancelLead, coeff_eq, toPoly_sub, toPoly_mul, leadQuotient, toPoly_term, coeff_sub, mul_assoc, coeff_X_pow_mul',
    if_pos hplace, coeff_C_mul, ← coeff_eq, ← coeff_eq]
  rcases Nat.eq_or_lt_of_le hk with rfl | hk
  · have hlow : s.2.coeffs.length - 1 - (s.2.coeffs.length - d.coeffs.length) = d.coeffs.length - 1 := by omega
    rw [hlow, coeff_length_sub_one, coeff_length_sub_one, div_mul_cancel₀ _ hlead, sub_self]
  · rw [coeff_of_length_le (by omega), coeff_of_length_le (p := d) (by omega), mul_zero, sub_zero]

/-! ## All steps -/

/-- The steps go on as long as the rest is no shorter than the divisor, at most once for each of its places, and end with
a shorter rest. -/
theorem cancelLead_run (hd : d.isZero = false) (s : RatPoly × RatPoly) : ∃ n ≤ s.2.coeffs.length,
    (∀ m < n, d.coeffs.length ≤ ((cancelLead d)^[m] s).2.coeffs.length) ∧
      ((cancelLead d)^[n] s).2.coeffs.length < d.coeffs.length := by
  induction hn : s.2.coeffs.length using Nat.strong_induction_on generalizing s with
  | _ len ih =>
    by_cases hlen : d.coeffs.length ≤ s.2.coeffs.length
    · have hshort := length_cancelLead hd hlen
      obtain ⟨n, hle, hrun, hend⟩ := ih _ (hn ▸ hshort) (cancelLead d s) rfl
      refine ⟨n + 1, by omega, fun m hm => ?_, hend⟩
      cases m with
      | zero => exact hlen
      | succ m => exact hrun m (by omega)
    · exact ⟨0, Nat.zero_le _, fun m hm => absurd hm (Nat.not_lt_zero m), not_le.1 hlen⟩

theorem iterate_cancelLead_sum (d : RatPoly) (s : RatPoly × RatPoly) (n : Nat) :
    ((cancelLead d)^[n] s).1.toPoly * d.toPoly + ((cancelLead d)^[n] s).2.toPoly =
      s.1.toPoly * d.toPoly + s.2.toPoly := by
  induction n with
  | zero => rfl
  | succ n ih => rw [Function.iterate_succ_apply', cancelLead_sum, ih]

/-- Long division ends with the quotient and the remainder. -/
theorem exists_iterate_cancelLead (hd : d.isZero = false) (p : RatPoly) : ∃ n ≤ p.coeffs.length,
    (∀ m < n, d.coeffs.length ≤ ((cancelLead d)^[m] (zero, p)).2.coeffs.length) ∧
      (cancelLead d)^[n] (zero, p) = p.divMod d := by
  obtain ⟨n, hle, hrun, hend⟩ := cancelLead_run hd (zero, p)
  have hsum := iterate_cancelLead_sum d (zero, p) n
  rw [toPoly_eq_zero (p := zero) rfl, zero_mul, zero_add, (divMod_spec p hd).1] at hsum
  obtain ⟨hq, hr⟩ := division_unique hd hend (length_divMod_snd p d hd) hsum
  exact ⟨n, hle, hrun, Prod.ext hq hr⟩

/-! ## Quotients and remainders -/

/-- Zero, or of a smaller degree. -/
def Smaller (r d : RatPoly) : Prop := r = zero ∨ ∃ m n, r.degree? = some m ∧ d.degree? = some n ∧ m < n

theorem smaller_iff (hd : d.isZero = false) : Smaller r d ↔ r.coeffs.length < d.coeffs.length := by
  unfold Smaller degree?
  cases hdc : d.coeffs with
  | nil => simp [isZero, hdc] at hd
  | cons b bs =>
    cases hrc : r.coeffs with
    | nil => simp [eq_zero_of_isZero (p := r) (by rw [isZero, hrc]; rfl)]
    | cons c cs =>
      have hne : r ≠ zero := by
        rintro rfl
        cases hrc
      simp [hne]

theorem eq_mul_add_iff : p = (q.mul d).add r ↔ p.toPoly = q.toPoly * d.toPoly + r.toPoly := by
  rw [← toPoly_mul, ← toPoly_add]
  exact ⟨congrArg toPoly, toPoly_injective⟩

/-- A product and a sum, coefficient by coefficient. -/
theorem coeff_mul_add (h : p = (q.mul d).add r) (k : Nat) :
    p.coeff k = ∑ ij ∈ Finset.HasAntidiagonal.antidiagonal k, q.coeff ij.1 * d.coeff ij.2 + r.coeff k := by
  simp only [coeff_eq]
  rw [eq_mul_add_iff.1 h, coeff_add, coeff_mul]

/-- The quotient and the remainder are told by their identity. -/
theorem divMod_eq_iff (hd : d.isZero = false) :
    p.divMod d = (q, r) ↔ p = (q.mul d).add r ∧ Smaller r d := by
  obtain ⟨hsum, -⟩ := divMod_spec p hd
  have hshort := length_divMod_snd p d hd
  rw [eq_mul_add_iff, smaller_iff hd]
  constructor
  · intro h
    rw [h] at hsum hshort
    exact ⟨hsum, hshort⟩
  · rintro ⟨h, hr⟩
    obtain ⟨hq, hr⟩ := division_unique hd hshort hr (hsum.symm.trans h)
    exact Prod.ext hq hr

theorem deflate_identity (p : RatPoly) (c : Rat) : p = ((linear c).mul (p.deflate c)).add (ofConst (p.eval c)) := by
  rw [eq_mul_add_iff, toPoly_linear, toPoly_ofConst]
  exact toPoly_deflate_add p c

/-- Division by a polynomial that is not zero is long division. The dividend is the quotient times the divisor and the
remainder, coefficient by coefficient; the remainder is zero or of smaller degree than the divisor, and no other pair is
so. Division by `x - c` leaves the value at `c`. -/
theorem divMod_identity (p : RatPoly) :
    (∀ d : RatPoly, d ≠ zero →
      (∃ n ≤ p.coeffs.length, (∀ m < n, d.coeffs.length ≤ ((cancelLead d)^[m] (zero, p)).2.coeffs.length) ∧
        (cancelLead d)^[n] (zero, p) = p.divMod d) ∧
      (∀ q r, p.divMod d = (q, r) ↔ p = (q.mul d).add r ∧ Smaller r d) ∧
      ∀ k, p.coeff k = ∑ ij ∈ Finset.HasAntidiagonal.antidiagonal k, (p.divMod d).1.coeff ij.1 * d.coeff ij.2 +
        (p.divMod d).2.coeff k) ∧
    ∀ c : Rat, p = ((linear c).mul (p.deflate c)).add (ofConst (p.eval c)) ∧
      ∀ k, p.coeff k = ∑ ij ∈ Finset.HasAntidiagonal.antidiagonal k, (linear c).coeff ij.1 * (p.deflate c).coeff ij.2 +
        (ofConst (p.eval c)).coeff k := by
  refine ⟨fun d hd => ?_, fun c => ⟨deflate_identity p c, coeff_mul_add (deflate_identity p c)⟩⟩
  have hz : d.isZero = false := Bool.eq_false_of_not_eq_true fun h => hd (eq_zero_of_isZero h)
  exact ⟨exists_iterate_cancelLead hz p, fun q r => divMod_eq_iff hz, coeff_mul_add ((divMod_eq_iff hz).1 rfl).1⟩

/-- Two terms of `x^5 + x^3 + x + 2` go with the first multiple of `x^2 + 1`, and a rest of degree one is left. -/
theorem divMod_identity_skip :
    let p := ofList [2, 1, 0, 1, 0, 1]
    let d := ofList [1, 0, 1]
    d ≠ zero ∧ p.divMod d = (ofList [0, 0, 0, 1], ofList [2, 1]) ∧
      p = ((linear 1).mul (p.deflate 1)).add (ofConst 5) := by
  intro p d
  have hd : d ≠ zero := by decide
  obtain ⟨hdivision, hdeflate⟩ := divMod_identity p
  have hvalue : p.eval 1 = 5 := by cbv
  refine ⟨hd, ((hdivision d hd).2.1 _ _).2 ⟨by cbv, .inr ⟨1, 2, rfl, rfl, by decide⟩⟩, ?_⟩
  rw [← hvalue]
  exact (hdeflate 1).1

end SymbolicSolver.RatPoly
