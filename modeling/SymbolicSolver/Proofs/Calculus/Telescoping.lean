import Mathlib.Algebra.BigOperators.Field
import Mathlib.LinearAlgebra.Lagrange
import SymbolicSolver.Calculus.Summation
import SymbolicSolver.Proofs.Polynomial.ClosedForm
import SymbolicSolver.Proofs.Polynomial.Coefficients

/-!
# Telescoping sums

A proper fraction whose denominator has as many different rational roots as its degree is the sum of `A / (k - r)`
over these roots. Where `k - r` is a positive whole number, `1 / (k - r)` is a difference of neighbouring harmonic
numbers, and so the fraction is a difference of neighbouring values of a weighted sum of harmonic numbers.
-/

namespace SymbolicSolver

open Polynomial

namespace RatPoly

/-! ## Partial fractions -/

theorem polyOf_derivativeFrom (k : Nat) (cs : List Rat) :
    polyOf (derivativeFrom k cs) = X * Polynomial.derivative (polyOf cs) + C (k : ℚ) * polyOf cs := by
  induction cs generalizing k with
  | nil => simp [derivativeFrom]
  | cons c cs ih =>
    rw [derivativeFrom, polyOf_cons, polyOf_cons, ih, derivative_add, derivative_C, derivative_mul, derivative_X,
      C_mul, Nat.cast_succ, C_add, C_1]
    ring

theorem toPoly_derivative (p : RatPoly) : p.derivative.toPoly = Polynomial.derivative p.toPoly := by
  rw [derivative, toPoly_ofList, polyOf_derivativeFrom, toPoly]
  cases p.coeffs with
  | nil => simp
  | cons c cs =>
    rw [List.tail_cons, polyOf_cons, derivative_add, derivative_C, derivative_mul, derivative_X, Nat.cast_one, C_1]
    ring

/-- A polynomial with as many roots as its degree is a multiple of the product of their factors. -/
theorem eq_C_mul_nodal {d : ℚ[X]} {rs : Finset ℚ} (hd : d ≠ 0) (hdeg : d.degree = rs.card)
    (hroots : ∀ r ∈ rs, d.eval r = 0) : d = C d.leadingCoeff * Lagrange.nodal rs id := by
  have hlead : d.leadingCoeff ≠ 0 := leadingCoeff_ne_zero.2 hd
  have hmonic : (Lagrange.nodal rs (id : ℚ → ℚ)).Monic := Lagrange.nodal_monic
  have hsame : d.degree = (C d.leadingCoeff * Lagrange.nodal rs id).degree := by
    rw [degree_C_mul hlead, Lagrange.degree_nodal, hdeg]
  have hlt := degree_sub_lt_left hsame hd (by rw [leadingCoeff_mul, leadingCoeff_C, hmonic.leadingCoeff, mul_one])
  refine sub_eq_zero.1 (eq_zero_of_degree_lt_of_eval_finset_eq_zero rs (hdeg ▸ hlt) fun r hr => ?_)
  have hnode : (Lagrange.nodal rs id).eval r = 0 := Lagrange.eval_nodal_at_node (v := id) hr
  rw [Polynomial.eval_sub, Polynomial.eval_mul, hroots r hr, hnode, mul_zero, sub_zero]

/-- The parts of a proper fraction at the simple roots of its denominator. -/
theorem partialFractions {n d : ℚ[X]} {rs : Finset ℚ} (hd : d ≠ 0) (hdeg : d.degree = rs.card)
    (hroots : ∀ r ∈ rs, d.eval r = 0) (hn : n.degree < rs.card) {x : ℚ} (hx : d.eval x ≠ 0) :
    n.eval x / d.eval x = ∑ r ∈ rs, n.eval r / (Polynomial.derivative d).eval r * (1 / (x - r)) := by
  have hlead : d.leadingCoeff ≠ 0 := leadingCoeff_ne_zero.2 hd
  have hnodal := eq_C_mul_nodal hd hdeg hroots
  have hapart : ∀ r ∈ rs, x ≠ id r := by
    intro r hr heq
    exact hx (heq ▸ hroots r hr)
  have hne : (Lagrange.nodal rs id).eval x ≠ 0 := by
    intro hzero
    rw [hnodal, Polynomial.eval_mul, hzero, mul_zero] at hx
    exact hx rfl
  have hinterpolate := congrArg (Polynomial.eval x)
    (Lagrange.eq_interpolate (s := rs) (v := id) Function.injective_id.injOn hn)
  rw [Lagrange.eval_interpolate_not_at_node _ hapart] at hinterpolate
  have hdx : d.eval x = d.leadingCoeff * (Lagrange.nodal rs id).eval x := by
    conv_lhs => rw [hnodal, Polynomial.eval_mul, eval_C]
  rw [hinterpolate, hdx, mul_comm d.leadingCoeff, mul_div_mul_left _ _ hne, Finset.sum_div]
  refine Finset.sum_congr rfl fun r hr => ?_
  have hslope : (Polynomial.derivative d).eval r = d.leadingCoeff * (Lagrange.nodalWeight rs id r)⁻¹ := by
    have hweight := Lagrange.nodalWeight_eq_eval_derivative_nodal (v := id) hr
    rw [hweight, inv_inv]
    conv_lhs => rw [hnodal, derivative_C_mul, Polynomial.eval_mul, eval_C]
    rfl
  rw [hslope, id]
  field_simp

/-! ## Rational roots -/

theorem testCandidates_nodup (cs candidates : List Rat) {found : List Rat} (h : found.Nodup) :
    (testCandidates cs found candidates).Nodup := by
  unfold testCandidates
  induction candidates generalizing found with
  | nil => exact h
  | cons c candidates ih =>
    rw [List.foldl_cons]
    refine ih ?_
    split
    · rename_i htest
      simp only [Bool.and_eq_true, Bool.not_eq_true', List.contains_eq_mem, decide_eq_false_iff_not,
        decide_eq_true_eq] at htest
      exact List.nodup_append.2 ⟨h, List.nodup_singleton c, fun a ha b hb heq =>
        htest.1 (List.mem_singleton.1 hb ▸ heq ▸ ha)⟩
    · exact h

theorem rationalRoots_nodup (p : RatPoly) : p.rationalRoots.Nodup := by
  have hzeros : (if p.coeff 0 = 0 then ([0] : List Rat) else []).Nodup := by split <;> simp
  unfold rationalRoots
  split
  · exact List.nodup_nil
  · dsimp only
    split
    · exact hzeros
    · split
      · exact hzeros
      · exact (List.mergeSort_perm _ _).nodup_iff.2 (testCandidates_nodup _ _ hzeros)

end RatPoly

namespace Expr

/-! ## Harmonic numbers -/

theorem harmonic_succ (n : Nat) : harmonic (n + 1) = harmonic n + 1 / ((n : ℚ) + 1) := by
  rw [harmonic, List.range_succ, List.foldl_append, List.foldl_cons, List.foldl_nil, ← harmonic, Rat.mkRat_eq_div]
  push_cast
  rfl

/-- The harmonic number before a whole number. -/
def harmonicBefore (s : Rat) : Rat := harmonic (s.num.natAbs - 1)

theorem harmonicBefore_add_one {s : Rat} (hden : s.den = 1) (hpos : 0 < s) :
    harmonicBefore (s + 1) = harmonicBefore s + 1 / s := by
  obtain ⟨m, rfl⟩ : ∃ m : ℕ, s = m + 1 := by
    refine ⟨s.num.natAbs - 1, ?_⟩
    have hnum := Rat.num_pos.2 hpos
    have hcast : ((s.num.natAbs - 1 : ℕ) : ℤ) + 1 = s.num := by omega
    conv_lhs => rw [← Rat.coe_int_num_of_den_eq_one hden, ← hcast]
    push_cast
    rfl
  have hnum (k : ℕ) : ((k : ℚ) + 1).num.natAbs - 1 = k := by
    have hcast : ((k : ℚ) + 1) = ((k + 1 : ℕ) : ℚ) := by push_cast; rfl
    rw [hcast, Rat.num_natCast, Int.natAbs_natCast, Nat.add_sub_cancel]
  have hsucc := hnum (m + 1)
  push_cast at hsucc
  rw [harmonicBefore, harmonicBefore, hnum, hsucc, harmonic_succ]

/-! ## Sums of partial fractions -/

/-- Minus the weighted sum of the harmonic numbers before the distances from the roots. -/
def telescope (n slope : RatPoly) (rs : List Rat) (a : Rat) : Rat :=
  -(rs.map fun r => n.eval r / slope.eval r * harmonicBefore (a - r)).sum

theorem telescopingParts?_eq {n slope : RatPoly} {a : Rat} {rs : List Rat} {t : Rat × Rat}
    (h : telescopingParts? n slope a rs = some t) :
    t.1 = telescope n slope rs a ∧ ∀ r ∈ rs, (a - r).den = 1 ∧ 0 < a - r := by
  induction rs generalizing t with
  | nil =>
    obtain rfl := Option.some.inj h
    simp [telescope]
  | cons r rs ih =>
    rw [telescopingParts?] at h
    dsimp only at h
    split at h
    · rename_i hs
      obtain ⟨u, hu, rfl⟩ := Option.map_eq_some_iff.1 h
      obtain ⟨hvalue, hrest⟩ := ih hu
      refine ⟨?_, List.forall_mem_cons.2 ⟨⟨hs.1, hs.2.1⟩, hrest⟩⟩
      simp only [hvalue, telescope, List.map_cons, List.sum_cons, harmonicBefore]
      ring
    · cases h

/-- One step of the weighted sum is a partial fraction at every root. -/
theorem telescope_succ {n slope : RatPoly} {rs : List Rat} {a : Rat} (h : ∀ r ∈ rs, (a - r).den = 1 ∧ 0 < a - r) :
    telescope n slope rs a =
      (rs.map fun r => n.eval r / slope.eval r * (1 / (a - r))).sum + telescope n slope rs (a + 1) := by
  induction rs with
  | nil => simp [telescope]
  | cons r rs ih =>
    obtain ⟨⟨hden, hpos⟩, hrs⟩ := List.forall_mem_cons.1 h
    have hrest := ih hrs
    have hstep := harmonicBefore_add_one hden hpos
    simp only [telescope, List.map_cons, List.sum_cons] at hrest ⊢
    rw [show a + 1 - r = a - r + 1 by ring, hstep]
    linarith

variable {f : Expr} {name : String} {a : Int} {s : Expr}

/-- What a telescoping sum found says: the fraction is in lowest form enough to be taken apart. -/
theorem infiniteTelescoping?_parts (h : infiniteTelescoping? f name a = some s) :
    ∃ n d : RatPoly, f.toFraction.num.ratPoly? name = some n ∧ f.toFraction.den.ratPoly? name = some d ∧
      d.isZero = false ∧ n.coeffs.length < d.coeffs.length ∧ d.rationalRoots.length + 1 = d.coeffs.length ∧
      (∀ r ∈ d.rationalRoots, ((a : Rat) - r).den = 1 ∧ 0 < (a : Rat) - r) ∧
      s = rat (telescope n d.derivative d.rationalRoots a) := by
  rw [infiniteTelescoping?] at h
  dsimp only at h
  split at h
  · rename_i n d hn hd
    split at h
    · cases h
    · rename_i htest
      simp only [Bool.or_eq_true, decide_eq_true_eq, not_or, Bool.not_eq_true, not_le, ne_eq, not_not] at htest
      obtain ⟨t, ht, hs⟩ := Option.bind_eq_some_iff.1 h
      obtain ⟨hvalue, hroots⟩ := telescopingParts?_eq ht
      split at hs
      · obtain rfl := Option.some.inj hs
        exact ⟨n, d, hn, hd, htest.1.1, (le_max_left _ _).trans_lt htest.1.2, htest.2, hroots, by rw [hvalue]⟩
      · cases hs
  · cases h

/-- The value of the fraction at a whole number behind all roots is one step of the weighted sum. -/
theorem telescope_fraction {n d : RatPoly} (hd : d.isZero = false) (hlen : n.coeffs.length < d.coeffs.length)
    (hroots : d.rationalRoots.length + 1 = d.coeffs.length) {k : Rat}
    (hk : ∀ r ∈ d.rationalRoots, (k - r).den = 1 ∧ 0 < k - r) (hne : d.eval k ≠ 0) :
    telescope n d.derivative d.rationalRoots k =
      n.eval k / d.eval k + telescope n d.derivative d.rationalRoots (k + 1) := by
  obtain ⟨hlast, hlead⟩ := RatPoly.getLast?_coeffs hd
  have hcard : d.rationalRoots.toFinset.card = d.rationalRoots.length :=
    List.toFinset_card_of_nodup d.rationalRoots_nodup
  have hdegree : d.toPoly.degree = d.rationalRoots.toFinset.card := by
    refine le_antisymm ?_ ?_
    · rw [degree_le_iff_coeff_zero]
      intro m hm
      have hm' : d.rationalRoots.length < m := by rw [hcard] at hm; exact_mod_cast hm
      rw [RatPoly.toPoly, RatPoly.coeff_polyOf, List.getD_eq_default _ _ (by omega)]
    · have hle := RatPoly.length_le_degree_polyOf hlast hlead
      rwa [← hroots, Nat.add_sub_cancel, ← hcard] at hle
  have hndegree : n.toPoly.degree < d.rationalRoots.toFinset.card := by
    refine (RatPoly.degree_polyOf_lt n.coeffs).trans_le ?_
    rw [hcard]
    exact_mod_cast (by omega : n.coeffs.length ≤ d.rationalRoots.length)
  have hparts := RatPoly.partialFractions (RatPoly.toPoly_ne_zero hd) hdegree (x := k) (n := n.toPoly)
    (fun r hr => by
      rw [← RatPoly.eval_eq]
      exact RatPoly.eval_of_mem_rationalRoots (List.mem_toFinset.1 hr))
    hndegree (by rwa [← RatPoly.eval_eq])
  rw [telescope_succ hk, RatPoly.eval_eq n, RatPoly.eval_eq d, hparts,
    List.sum_toFinset _ d.rationalRoots_nodup]
  simp only [RatPoly.eval_eq, RatPoly.toPoly_derivative]

end Expr

end SymbolicSolver
