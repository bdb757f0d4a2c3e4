import Mathlib.Algebra.Polynomial.Degree.Domain
import Mathlib.Algebra.Polynomial.FieldDivision
import Mathlib.Data.List.GetD
import Mathlib.Tactic.LinearCombination
import SymbolicSolver.Polynomial.Basic

/-!
# Division and greatest common divisors

A list of coefficients denotes a polynomial over the rationals. Under this reading `divMod` is the division with
remainder, `gcd` divides both of its operands, and a division by a divisor leaves no remainder.
-/

namespace SymbolicSolver.RatPoly

open Polynomial

/-! ## The polynomial of a list of coefficients -/

/-- The polynomial with the given coefficients, lowest degree first. -/
noncomputable def polyOf : List Rat → ℚ[X]
  | [] => 0
  | c :: cs => C c + X * polyOf cs

/-- The polynomial that the coefficients denote. -/
noncomputable def toPoly (p : RatPoly) : ℚ[X] := polyOf p.coeffs

@[simp] theorem polyOf_nil : polyOf [] = 0 := rfl

@[simp] theorem polyOf_cons (c : Rat) (cs : List Rat) :
    polyOf (c :: cs) = C c + X * polyOf cs := rfl

theorem eval_polyOf (x : Rat) (cs : List Rat) : (polyOf cs).eval x = evalList x cs := by
  induction cs with
  | nil => simp [evalList]
  | cons c cs ih =>
    simp [evalList, ih]
    ring

theorem coeff_polyOf (cs : List Rat) (k : Nat) : (polyOf cs).coeff k = cs.getD k 0 := by
  induction cs generalizing k with
  | nil => simp
  | cons c cs ih =>
    cases k with
    | zero => simp
    | succ k => simp [ih]

theorem polyOf_concat_zero (cs : List Rat) : polyOf (cs ++ [0]) = polyOf cs := by
  induction cs with
  | nil => simp
  | cons c cs ih => simp [ih]

@[simp] theorem polyOf_stripZeros (cs : List Rat) : polyOf (stripZeros cs) = polyOf cs := by
  induction cs with
  | nil => rfl
  | cons c cs ih =>
    rw [polyOf_cons, ← ih, stripZeros]
    split
    · rename_i h
      rw [h]
      split
      · rename_i hc
        simp [hc]
      · rfl
    · rename_i d ds h
      rw [h]
      rfl

@[simp] theorem toPoly_ofList (cs : List Rat) : (ofList cs).toPoly = polyOf cs :=
  polyOf_stripZeros cs

theorem polyOf_map_mul (c : Rat) (cs : List Rat) :
    polyOf (cs.map (· * c)) = C c * polyOf cs := by
  induction cs with
  | nil => simp
  | cons d ds ih =>
    simp only [List.map_cons, polyOf_cons, ih, C_mul]
    ring

theorem toPoly_scale (p : RatPoly) (c : Rat) : (p.scale c).toPoly = C c * p.toPoly := by
  rw [scale, toPoly_ofList, polyOf_map_mul, toPoly]

theorem toPoly_monic (p : RatPoly) : p.monic.toPoly = C p.lead⁻¹ * p.toPoly := by
  rw [monic, toPoly_ofList, toPoly]
  simp only [div_eq_mul_inv, polyOf_map_mul]

/-! ## Degrees -/

theorem degree_polyOf_lt (cs : List Rat) : (polyOf cs).degree < cs.length := by
  rw [degree_lt_iff_coeff_zero]
  intro k hk
  rw [coeff_polyOf, List.getD_eq_default _ _ hk]

/-- A list that does not end in zero has the degree that its length says. -/
theorem length_le_degree_polyOf {d : List Rat} {lead : Rat} (hlast : d.getLast? = some lead)
    (hlead : lead ≠ 0) : ((d.length - 1 : Nat) : WithBot Nat) ≤ (polyOf d).degree := by
  refine le_degree_of_ne_zero ?_
  rw [coeff_polyOf, List.getD_eq_getElem?_getD, ← List.getLast?_eq_getElem?, hlast]
  exact hlead

theorem degree_lt_of_length_lt {d r : List Rat} {lead : Rat} (hlast : d.getLast? = some lead)
    (hlead : lead ≠ 0) (h : r.length < d.length) : (polyOf r).degree < (polyOf d).degree := by
  have hle : (r.length : WithBot Nat) ≤ (d.length - 1 : Nat) := by
    exact_mod_cast Nat.le_sub_one_of_lt h
  exact (degree_polyOf_lt r).trans_le (hle.trans (length_le_degree_polyOf hlast hlead))

/-- A polynomial that is not zero has a leading coefficient. -/
theorem getLast?_coeffs {p : RatPoly} (h : p.isZero = false) :
    p.coeffs.getLast? = some p.lead ∧ p.lead ≠ 0 := by
  have hne := p.lead_ne_zero
  unfold lead
  cases hl : p.coeffs.getLast? with
  | none => simp [isZero, List.getLast?_eq_none_iff.1 hl] at h
  | some c =>
    rw [hl] at hne
    exact ⟨rfl, fun h0 => hne (congrArg some h0)⟩

theorem toPoly_eq_zero {p : RatPoly} (h : p.isZero = true) : p.toPoly = 0 := by
  rw [toPoly, List.isEmpty_iff.1 h, polyOf_nil]

theorem toPoly_ne_zero {p : RatPoly} (h : p.isZero = false) : p.toPoly ≠ 0 := by
  obtain ⟨hlast, hlead⟩ := getLast?_coeffs h
  intro h0
  have hdeg := length_le_degree_polyOf hlast hlead
  rw [← toPoly, h0, degree_zero] at hdeg
  simp at hdeg

/-! ## Division with remainder -/

theorem polyOf_zipWith_sub (c : Rat) {r d : List Rat} (h : r.length = d.length) :
    polyOf (List.zipWith (fun x y => x - c * y) r d) = polyOf r - C c * polyOf d := by
  induction r generalizing d with
  | nil => simp [List.length_eq_zero_iff.1 h.symm]
  | cons x r ih =>
    cases d with
    | nil => simp at h
    | cons y d =>
      simp only [List.zipWith_cons_cons, polyOf_cons, ih (Nat.succ.inj h), C_sub, C_mul]
      ring

/-- Subtracting the multiple that clears the leading place is a step of the division. -/
theorem polyOf_reduceLead {d r : List Rat} {lead : Rat} (hlast : d.getLast? = some lead)
    (hlead : lead ≠ 0) (h : r.length = d.length) :
    polyOf (reduceLead (r.getLast?.getD 0 / lead) d r) =
      polyOf r - C (r.getLast?.getD 0 / lead) * polyOf d := by
  obtain ⟨ds, rfl⟩ := List.getLast?_eq_some_iff.1 hlast
  obtain ⟨rs, a, rfl⟩ : ∃ rs a, r = rs ++ [a] := by
    rcases List.eq_nil_or_concat r with rfl | ⟨rs, a, rfl⟩
    · simp at h
    · exact ⟨rs, a, List.concat_eq_append⟩
  have hlen : rs.length = ds.length := by simpa using h
  have hclear : a - a / lead * lead = 0 := by rw [div_mul_cancel₀ a hlead, sub_self]
  rw [← polyOf_zipWith_sub _ h]
  simp [reduceLead, List.zipWith_append hlen, hclear, polyOf_concat_zero]

theorem polyOf_divList {d : List Rat} {lead : Rat} (hlast : d.getLast? = some lead)
    (hlead : lead ≠ 0) (p : List Rat) :
    polyOf p = polyOf (divList d lead p).1 * polyOf d + polyOf (divList d lead p).2 := by
  have hd : d ≠ [] := by
    rintro rfl
    simp at hlast
  induction p with
  | nil => simp [divList]
  | cons a p ih =>
    have hshort := length_divList_snd d lead hd p
    rw [divList]
    generalize divList d lead p = qr at ih hshort ⊢
    obtain ⟨q, r⟩ := qr
    dsimp only at ih hshort ⊢
    split
    · -- The remainder stays shorter than the divisor, and the next coefficient joins it.
      simp only [polyOf_cons, ih, C_0]
      ring
    · rename_i hfull
      have hlen : (a :: r).length = d.length := by
        simp only [List.length_cons] at hfull ⊢
        omega
      rw [polyOf_cons, polyOf_cons, polyOf_reduceLead hlast hlead hlen, ih, polyOf_cons]
      ring

/-- The quotient and the remainder are those of the polynomials. -/
theorem divMod_spec (p : RatPoly) {d : RatPoly} (hd : d.isZero = false) :
    p.toPoly = (p.divMod d).1.toPoly * d.toPoly + (p.divMod d).2.toPoly ∧
      (p.divMod d).2.toPoly.degree < d.toPoly.degree := by
  obtain ⟨hlast, hlead⟩ := getLast?_coeffs hd
  refine ⟨?_, degree_lt_of_length_lt hlast hlead (length_divMod_snd p d hd)⟩
  rw [divMod, if_neg (by simp [hd])]
  dsimp only
  rw [toPoly_ofList, toPoly_ofList]
  exact polyOf_divList hlast hlead p.coeffs

/-- A division by a divisor leaves no remainder. -/
theorem divMod_of_dvd {p d : RatPoly} (hd : d.isZero = false) (h : d.toPoly ∣ p.toPoly) :
    p.toPoly = (p.divMod d).1.toPoly * d.toPoly := by
  obtain ⟨hdiv, hdeg⟩ := divMod_spec p hd
  have hrem : d.toPoly ∣ (p.divMod d).2.toPoly := by
    rw [hdiv] at h
    exact (dvd_add_right (dvd_mul_left _ _)).1 h
  rw [eq_zero_of_dvd_of_degree_lt hrem hdeg, add_zero] at hdiv
  exact hdiv

/-- A factor has at most as many coefficients as a product. -/
theorem length_le_of_mul {p q : RatPoly} {g : ℚ[X]} (hg : g ≠ 0)
    (h : p.toPoly = q.toPoly * g) : q.coeffs.length ≤ p.coeffs.length := by
  by_cases hq : q.isZero = true
  · rw [List.isEmpty_iff.1 hq]
    exact Nat.zero_le _
  · obtain ⟨hlast, hlead⟩ := getLast?_coeffs (Bool.eq_false_of_not_eq_true hq)
    have hlow := length_le_degree_polyOf hlast hlead
    have hhigh := degree_polyOf_lt p.coeffs
    rw [← toPoly] at hlow hhigh
    have hdvd : q.toPoly.degree ≤ p.toPoly.degree := by
      rw [h, degree_mul]
      exact le_add_of_nonneg_right (zero_le_degree_iff.2 hg)
    have hlt := (hlow.trans hdvd).trans_lt hhigh
    have hlt' : q.coeffs.length - 1 < p.coeffs.length := by exact_mod_cast hlt
    omega

/-! ## Greatest common divisors -/

theorem euclid_dvd (a b : RatPoly) :
    (euclid a b).toPoly ∣ a.toPoly ∧ (euclid a b).toPoly ∣ b.toPoly := by
  fun_induction euclid a b with
  | case1 a b hb ih =>
    obtain ⟨hdvdb, hdvdr⟩ := ih
    refine ⟨?_, hdvdb⟩
    rw [(divMod_spec a hb).1]
    exact dvd_add (hdvdb.mul_left _) hdvdr
  | case2 a b hb =>
    rw [toPoly_eq_zero (p := b) (by simpa using hb)]
    exact ⟨dvd_rfl, dvd_zero _⟩

/-- The greatest common divisor divides both operands. -/
theorem gcd_dvd (a b : RatPoly) : (a.gcd b).toPoly ∣ a.toPoly ∧ (a.gcd b).toPoly ∣ b.toPoly := by
  obtain ⟨ha, hb⟩ := euclid_dvd a b
  have hmonic : (a.gcd b).toPoly ∣ (euclid a b).toPoly := by
    rw [gcd, toPoly_monic]
    by_cases h : (euclid a b).isZero = true
    · rw [toPoly_eq_zero h, mul_zero]
    · obtain ⟨-, hlead⟩ := getLast?_coeffs (Bool.eq_false_of_not_eq_true h)
      exact (isUnit_C.2 (isUnit_iff_ne_zero.2 (inv_ne_zero hlead))).mul_left_dvd.2 dvd_rfl
  exact ⟨hmonic.trans ha, hmonic.trans hb⟩

/-- The greatest common divisor is zero only if both operands are. -/
theorem gcd_isZero {a b : RatPoly} (hb : b.isZero = false) : (a.gcd b).isZero = false := by
  by_contra h
  have hdvd := (gcd_dvd a b).2
  rw [toPoly_eq_zero (Bool.eq_true_of_not_eq_false h)] at hdvd
  exact toPoly_ne_zero hb (zero_dvd_iff.1 hdvd)

end SymbolicSolver.RatPoly
