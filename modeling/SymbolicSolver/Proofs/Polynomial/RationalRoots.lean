import Mathlib.Algebra.Polynomial.Lifts
import Mathlib.RingTheory.Localization.Rat
import Mathlib.RingTheory.Polynomial.RationalRoot
import SymbolicSolver.Proofs.Calculus.Telescoping
import SymbolicSolver.Proofs.Canonical.Order
import SymbolicSolver.Proofs.Number.Root

/-!
# The search for rational roots finds all of them

The coefficients of a polynomial, without the zeros in front and cleared of denominators, are whole numbers. By the
rational root theorem the numerator of a root other than zero divides the first and its denominator the last of them,
and the divisors up to a square root with their cofactors are all divisors. So every root is among the candidates, and
those that pass the test are kept once each and sorted.
-/

namespace SymbolicSolver

/-! ## Divisors -/

/-- A divisor is at most the square root, or its cofactor is. -/
theorem mem_divisors {n d : Nat} (hn : 0 < n) : d ∈ divisors n ↔ d ∣ n := by
  have hsmall {k : Nat} : k ∈ (List.range' 1 (floorSqrt n)).filter (fun d => n % d = 0) ↔ k ∣ n ∧ k * k ≤ n := by
    rw [floorSqrt_eq, Int.toNat_natCast, List.mem_filter, List.mem_range'_1, decide_eq_true_eq,
      ← Nat.dvd_iff_mod_eq_zero, Nat.lt_one_add_iff, Nat.le_sqrt]
    exact ⟨fun h => ⟨h.2, h.1.2⟩, fun h => ⟨⟨Nat.pos_of_dvd_of_pos h.1 hn, h.2⟩, h.1⟩⟩
  simp only [divisors, List.mem_append, List.mem_reverse, List.mem_map, List.mem_filter (p := fun d => decide (d ≠ n / d)),
    hsmall, decide_eq_true_eq]
  constructor
  · rintro (⟨hd, -⟩ | ⟨k, ⟨⟨hk, -⟩, -⟩, rfl⟩)
    · exact hd
    · exact Nat.div_dvd_of_dvd hk
  · intro hd
    obtain ⟨k, rfl⟩ := hd
    have hdpos : 0 < d := Nat.pos_of_mul_pos_right hn
    have hkpos : 0 < k := Nat.pos_of_mul_pos_left hn
    rcases le_or_gt d k with hle | hlt
    · exact .inl ⟨Nat.dvd_mul_right d k, Nat.mul_le_mul_left d hle⟩
    · refine .inr ⟨k, ⟨⟨Nat.dvd_mul_left k d, Nat.mul_le_mul_right k hlt.le⟩, ?_⟩, ?_⟩
      · rw [Nat.mul_div_cancel _ hkpos]
        exact hlt.ne
      · exact Nat.mul_div_cancel _ hkpos

namespace RatPoly

open Polynomial

/-! ## Clearing denominators -/

theorem commonDenominator_pos (cs : List Rat) : 0 < commonDenominator cs := by
  have hfold : ∀ (cs : List Rat) (m : Nat), 0 < m → 0 < cs.foldl (fun m c => m.lcm c.den) m := by
    intro cs
    induction cs with
    | nil => exact fun m hm => hm
    | cons c cs ih => exact fun m hm => ih _ (Nat.lcm_pos hm c.den_pos)
  exact hfold cs 1 one_pos

theorem den_dvd_commonDenominator {cs : List Rat} {c : Rat} (hc : c ∈ cs) : c.den ∣ commonDenominator cs := by
  have hfold : ∀ (cs : List Rat) (m : Nat), m ∣ cs.foldl (fun m c => m.lcm c.den) m ∧
      ∀ c ∈ cs, c.den ∣ cs.foldl (fun m c => m.lcm c.den) m := by
    intro cs
    induction cs with
    | nil => simp
    | cons d cs ih =>
      intro m
      obtain ⟨hacc, hmem⟩ := ih (m.lcm d.den)
      refine ⟨(Nat.dvd_lcm_left _ _).trans hacc, List.forall_mem_cons.2 ⟨(Nat.dvd_lcm_right _ _).trans hacc, hmem⟩⟩
  exact (hfold cs 1).2 c hc

/-- The coefficients cleared of denominators. -/
def cleared (cs : List Rat) : List Int := cs.map fun c => (c * (commonDenominator cs : Rat)).num

theorem cleared_cast (cs : List Rat) :
    (cleared cs).map (fun k : Int => (k : Rat)) = cs.map (· * (commonDenominator cs : Rat)) := by
  rw [cleared, List.map_map]
  refine List.map_congr_left fun c hc => ?_
  obtain ⟨k, hk⟩ := den_dvd_commonDenominator hc
  rw [Function.comp_apply, Rat.coe_int_num_of_den_eq_one]
  rw [hk, Nat.cast_mul, ← mul_assoc, Rat.mul_den_eq_num, ← Int.cast_natCast (R := ℚ) k, ← Int.cast_mul]
  exact Rat.den_intCast _

theorem evalList_cleared (r : Rat) (cs : List Rat) :
    evalList r ((cleared cs).map fun k : Int => (k : Rat)) = commonDenominator cs * evalList r cs := by
  rw [cleared_cast, ← eval_polyOf, polyOf_map_mul, eval_mul, eval_C, eval_polyOf]

theorem num_cleared_ne_zero {c : Rat} (hc : c ≠ 0) (cs : List Rat) : (c * (commonDenominator cs : Rat)).num ≠ 0 := by
  have hpos := commonDenominator_pos cs
  rw [Rat.num_ne_zero]
  exact mul_ne_zero hc (by exact_mod_cast hpos.ne')

/-! ## The rational root theorem -/

/-- A list of whole coefficients as a polynomial over the whole numbers. -/
theorem exists_intPoly (ks : List Int) :
    ∃ P : ℤ[X], P.map (Int.castRingHom ℚ) = polyOf (ks.map fun k : Int => (k : Rat)) ∧ ∀ n, P.coeff n = ks.getD n 0 := by
  induction ks with
  | nil => exact ⟨0, by simp, by simp⟩
  | cons k ks ih =>
    obtain ⟨P, hmap, hcoeff⟩ := ih
    refine ⟨C k + X * P, by simp [hmap], fun n => ?_⟩
    cases n with
    | zero => simp
    | succ n => rw [coeff_add, coeff_C_succ, coeff_X_mul, hcoeff, zero_add, List.getD_cons_succ]

/-- The numerator of a root divides the first coefficient, and the denominator the last one. -/
theorem root_dvd {ks : List Int} {first last : Int} (hfirst : ks.head? = some first) (hlast : ks.getLast? = some last)
    (h0 : last ≠ 0) {r : Rat} (hr : evalList r (ks.map fun k : Int => (k : Rat)) = 0) :
    r.num.natAbs ∣ first.natAbs ∧ r.den ∣ last.natAbs := by
  obtain ⟨P, hmap, hcoeff⟩ := exists_intPoly ks
  have hroot : aeval r P = 0 := by
    rw [aeval_def, eval₂_eq_eval_map, algebraMap_int_eq, hmap, eval_polyOf]
    exact hr
  have htop : P.coeff (ks.length - 1) = last := by
    rw [hcoeff, List.getD_eq_getElem?_getD, ← List.getLast?_eq_getElem?, hlast, Option.getD_some]
  have hdegree : P.natDegree = ks.length - 1 := by
    refine natDegree_eq_of_le_of_coeff_ne_zero ?_ (htop ▸ h0)
    refine natDegree_le_iff_coeff_eq_zero.2 fun n hn => ?_
    rw [hcoeff, List.getD_eq_default _ _ (by omega)]
  have hnum := num_dvd_of_is_root hroot
  have hden := den_dvd_of_is_root hroot
  rw [hcoeff, List.getD_eq_getElem?_getD, ← List.head?_eq_getElem?, hfirst, Option.getD_some] at hnum
  rw [leadingCoeff, hdegree, htop] at hden
  constructor
  · rw [Int.natAbs_dvd_natAbs]
    exact r.isFractionRingNum.symm.dvd.trans hnum
  · rw [← r.isFractionRingDen, Int.natAbs_dvd_natAbs]
    exact hden

theorem mem_rootCandidates {a b : Nat} (ha : 0 < a) (hb : 0 < b) {r : Rat} (hnum : r.num.natAbs ∣ a) (hden : r.den ∣ b) :
    r ∈ rootCandidates a b := by
  simp only [rootCandidates, List.mem_flatMap, mem_divisors ha, mem_divisors hb, List.mem_cons, List.not_mem_nil, or_false]
  refine ⟨r.den, hden, r.num.natAbs, hnum, ?_⟩
  rcases Int.natAbs_eq r.num with h | h
  · exact .inl (by rw [← h, Rat.mkRat_self])
  · exact .inr (by rw [← h, Rat.mkRat_self])

/-- A root of a list of coefficients that neither begins nor ends with zero is among the candidates. -/
theorem root_mem_rootCandidates {cs : List Rat} {first last r : Rat} (hfirst : cs.head? = some first) (h0 : first ≠ 0)
    (hlast : cs.getLast? = some last) (hl0 : last ≠ 0) (hr : evalList r cs = 0) :
    r ∈ rootCandidates (first * (commonDenominator cs : Rat)).num.natAbs (last * (commonDenominator cs : Rat)).num.natAbs := by
  have hf := num_cleared_ne_zero h0 cs
  have hl := num_cleared_ne_zero hl0 cs
  have hcfirst : (cleared cs).head? = some (first * (commonDenominator cs : Rat)).num := by simp [cleared, hfirst]
  have hclast : (cleared cs).getLast? = some (last * (commonDenominator cs : Rat)).num := by simp [cleared, hlast]
  obtain ⟨hnum, hden⟩ := root_dvd hcfirst hclast hl (r := r) (by rw [evalList_cleared, hr, mul_zero])
  exact mem_rootCandidates (Int.natAbs_pos.2 hf) (Int.natAbs_pos.2 hl) hnum hden

/-! ## Testing the candidates -/

/-- What was found stays, and every candidate that is a root is found. -/
theorem mem_testCandidates (cs candidates : List Rat) {found : List Rat} {r : Rat}
    (h : r ∈ found ∨ (r ∈ candidates ∧ evalList r cs = 0)) : r ∈ testCandidates cs found candidates := by
  unfold testCandidates
  induction candidates generalizing found with
  | nil => simpa using h
  | cons c candidates ih =>
    rw [List.foldl_cons]
    refine ih ?_
    rcases h with hfound | ⟨hmem, hroot⟩
    · left
      split
      · exact List.mem_append_left _ hfound
      · exact hfound
    · rcases List.mem_cons.1 hmem with rfl | hlater
      · left
        split
        · exact List.mem_append_right _ (List.mem_singleton_self r)
        · rename_i htest
          simpa [hroot] using htest
      · exact .inr ⟨hlater, hroot⟩

/-- Away from zero the zeros in front do not matter. -/
theorem evalList_dropWhile_of_ne {r : Rat} (hr : r ≠ 0) {cs : List Rat} (h : evalList r cs = 0) :
    evalList r (cs.dropWhile (· = 0)) = 0 := by
  induction cs with
  | nil => rfl
  | cons c cs ih =>
    by_cases hc : c = 0
    · rw [List.dropWhile_cons_of_pos (by simpa using hc)]
      rw [evalList, hc, add_zero] at h
      exact ih ((mul_eq_zero.1 h).resolve_right hr)
    · rwa [List.dropWhile_cons_of_neg (by simpa using hc)]

theorem eval_zero_eq_coeff (p : RatPoly) : p.eval 0 = p.coeff 0 := by
  unfold eval coeff
  cases p.coeffs with
  | nil => rfl
  | cons c cs => simp [evalList]

/-! ## All rational roots -/

/-- The search looks for roots other than zero: there are none for want of a second coefficient, or the constant and
the leading coefficient are within its limit once denominators are cleared. -/
def WithinSearch (p : RatPoly) : Prop :=
  let ks := cleared (p.coeffs.dropWhile (· = 0))
  ks.length ≤ 1 ∨ (ks.head?.getD 0).natAbs ≤ 10 ^ 12 ∧ (ks.getLast?.getD 0).natAbs ≤ 10 ^ 12

/-- The list of rational roots is strictly increasing, whether or not it is complete. -/
theorem rationalRoots_sorted (p : RatPoly) : p.rationalRoots.Pairwise (· < ·) := by
  have hnodup := p.rationalRoots_nodup
  have hle (a b : Rat) : (Expr.compareRat a b).isLE = true ↔ a ≤ b := by
    unfold Expr.compareRat
    split
    · simpa using (by assumption : a < b).le
    · split <;> simp_all
  unfold rationalRoots at hnodup ⊢
  split
  · exact .nil
  · dsimp only
    split
    · split <;> simp
    · split
      · split <;> simp
      · rename_i h1 h2 h3
        simp only [if_neg h1, if_neg h2, if_neg h3] at hnodup
        refine (hnodup.and (List.pairwise_mergeSort ?_ ?_ _)).imp fun {a b} h => lt_of_le_of_ne ((hle a b).1 h.2) h.1
        · exact fun a b c hab hbc => (hle a c).2 (((hle a b).1 hab).trans ((hle b c).1 hbc))
        · intro a b
          rw [Bool.or_eq_true, hle, hle]
          exact le_total a b

/-- A list of coefficients with a root and without a zero at the end has two places. -/
theorem two_le_length_of_root {cs : List Rat} {last r : Rat} (hlast : cs.getLast? = some last) (h0 : last ≠ 0)
    (hr : evalList r cs = 0) : 2 ≤ cs.length := by
  match cs with
  | [] => simp at hlast
  | [c] =>
    rw [List.getLast?_singleton, Option.some.injEq] at hlast
    exact absurd (by simpa [evalList] using hr) (hlast ▸ h0)
  | _ :: _ :: _ => simp

theorem getLast?_dropWhile {cs : List Rat} {last : Rat} (hlast : cs.getLast? = some last) (h0 : last ≠ 0) :
    (cs.dropWhile (· = 0)).getLast? = some last := by
  induction cs with
  | nil => simp at hlast
  | cons c cs ih =>
    by_cases hc : c = 0
    · rw [List.dropWhile_cons_of_pos (by simpa using hc)]
      cases cs with
      | nil =>
        rw [List.getLast?_singleton, Option.some.injEq] at hlast
        exact absurd hc (hlast ▸ h0)
      | cons d ds => exact ih (by rwa [List.getLast?_cons_cons] at hlast)
    · rwa [List.dropWhile_cons_of_neg (by simpa using hc)]

/-- Every rational root of a polynomial other than zero is found, as long as the coefficients that are taken apart into
divisors are not too large. -/
theorem mem_rationalRoots {p : RatPoly} (hp : p.isZero = false) (hsearch : p.WithinSearch) {r : Rat} (hr : p.eval r = 0) :
    r ∈ p.rationalRoots := by
  obtain ⟨hlast, hlead⟩ := getLast?_coeffs hp
  have hzeros : r = 0 → r ∈ (if p.coeff 0 = 0 then [0] else [] : List Rat) := by
    rintro rfl
    rw [eval_zero_eq_coeff] at hr
    simp [hr]
  have hclast := getLast?_dropWhile hlast hlead
  have hfirst := List.head?_dropWhile_not (fun c : Rat => decide (c = 0)) p.coeffs
  have hcroot (h : r ≠ 0) := evalList_dropWhile_of_ne h hr
  unfold WithinSearch at hsearch
  unfold rationalRoots
  rw [if_neg (by have := two_le_length_of_root hlast hlead hr; omega)]
  dsimp only at hsearch ⊢
  generalize p.coeffs.dropWhile (· = 0) = cs at *
  split
  · rename_i hshort
    refine hzeros ?_
    by_contra h
    have := two_le_length_of_root hclast hlead (hcroot h)
    omega
  · rename_i hlong
    obtain ⟨c, ds, rfl⟩ : ∃ c ds, cs = c :: ds := List.exists_cons_of_ne_nil (by rintro rfl; simp at hlong)
    have hc : c ≠ 0 := by simpa using hfirst
    rw [cleared, List.length_map, or_iff_right hlong, List.head?_map, List.getLast?_map, hclast] at hsearch
    rw [hclast, if_neg (by simpa [maxRootCoeff] using hsearch), List.mem_mergeSort]
    refine mem_testCandidates _ _ ?_
    by_cases h : r = 0
    · exact .inl (hzeros h)
    · exact .inr ⟨root_mem_rootCandidates rfl hc hclast hlead (hcroot h), hcroot h⟩

/-- The rational roots that are found are roots and stand in strictly increasing order; within the limits of the search
they are all rational roots. -/
theorem rationalRoots_exact (p : RatPoly) (hp : p.isZero = false) :
    (p.WithinSearch → p.rationalRoots.Pairwise (· < ·) ∧ ∀ r, r ∈ p.rationalRoots ↔ p.eval r = 0) ∧
      ∀ r ∈ p.rationalRoots, p.eval r = 0 :=
  ⟨fun hsearch => ⟨p.rationalRoots_sorted, fun _ => ⟨eval_of_mem_rationalRoots, mem_rationalRoots hp hsearch⟩⟩,
    fun _ => eval_of_mem_rationalRoots⟩

/-- The roots of `x³/2 + x²/6 - x/3`, which are `-1`, `0` and `2/3`. -/
theorem rationalRoots_exact_cubic :
    let p := ofList [0, -1 / 3, 1 / 6, 1 / 2]
    p.isZero = false ∧ p.WithinSearch ∧ p.rationalRoots.Pairwise (· < ·) ∧
      ∀ r, r ∈ p.rationalRoots ↔ p.eval r = 0 := by
  have hp : (ofList [0, -1 / 3, 1 / 6, 1 / 2]).isZero = false := by decide +kernel
  have hsearch : (ofList [0, -1 / 3, 1 / 6, 1 / 2]).WithinSearch := by
    unfold WithinSearch
    decide +kernel
  exact ⟨hp, hsearch, (rationalRoots_exact _ hp).1 hsearch⟩

end RatPoly

end SymbolicSolver
