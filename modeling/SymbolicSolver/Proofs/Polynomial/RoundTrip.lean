import Mathlib.Algebra.CharZero.Infinite
import SymbolicSolver.Proofs.Polynomial.Terms

/-!
# Reading and writing polynomials

What is read as a polynomial in a variable has the coefficients that are given: they do not contain the variable, the
leading one is not zero, and the expression has the value of the polynomial wherever it has one. A polynomial that is
written as an expression is read again as itself. Its terms are rational multiples of different powers of the variable,
so the sum keeps all of them and there is nothing to expand; what is read then has the same values, and polynomials with
the same values are the same.
-/

namespace SymbolicSolver

namespace RatPoly

theorem length_le_of_toPoly_eq {p q : RatPoly} (h : p.toPoly = q.toPoly) : p.coeffs.length ≤ q.coeffs.length := by
  by_contra hlt
  have hp : p.isZero = false := by
    cases hcs : p.coeffs with
    | nil => simp [hcs] at hlt
    | cons c cs => simp [isZero, hcs]
  obtain ⟨hlast, hlead⟩ := getLast?_coeffs hp
  exact absurd (congrArg Polynomial.degree h) (degree_lt_of_length_lt hlast hlead (not_le.1 hlt)).ne'

/-- The coefficients are determined by the polynomial that they denote. -/
theorem toPoly_injective {p q : RatPoly} (h : p.toPoly = q.toPoly) : p = q := by
  have hcoeffs : p.coeffs = q.coeffs := by
    refine List.ext_getElem (le_antisymm (length_le_of_toPoly_eq h) (length_le_of_toPoly_eq h.symm)) fun k hp hq => ?_
    have hk := congrArg (Polynomial.coeff · k) h
    simpa [toPoly, coeff_polyOf, hp, hq] using hk
  cases p
  cases q
  simpa using hcoeffs

theorem eq_of_eval_eq {p q : RatPoly} (h : ∀ a, p.eval a = q.eval a) : p = q :=
  toPoly_injective (Polynomial.funext fun a => by rw [← eval_eq, ← eval_eq, h])

end RatPoly

namespace Expr

variable {v : String}

/-! ## Reading -/

section Reading

variable {p : String → Prop} {x : Expr} {cs : List Expr} {ρ : String → Rat}

/-- The coefficients have values wherever the expression has one. -/
theorem Plain.coefficients?_defined (hx : Plain p x) (hd : DefinedAt ρ x) (h : x.coefficients? v = some cs) :
    ∀ c ∈ cs, DefinedAt ρ c := by
  have hread {z : Expr} {q : String → Prop} (hz : Plain q z) :
      Defined (CirclePoint.ofVars ρ).reading z ↔ DefinedAt ρ z :=
    (hz.reading (r := (CirclePoint.ofVars ρ).reading) (s := .ofVars ρ) fun _ _ => rfl).1
  intro c hc
  rw [← hread (hx.coefficients? h c hc)]
  obtain ⟨ms, hms, rfl⟩ := Option.map_eq_some_iff.1 h
  have hparts := (monomials_value (expand_restates x ((hread hx).2 hd)).toReadable.terms
    (forall₂_of_mapM_eq_some hms)).1
  dsimp only at hc
  split at hc
  · exact List.mem_singleton.1 hc ▸ trivial
  · obtain ⟨k, -, rfl⟩ := List.mem_map.1 (Inherited.mem_dropZeroLead hc)
    refine (sum_keepsValue _ _ ((defined_add _).2 fun c hc => ?_)).1
    obtain ⟨m, hm, rfl⟩ := List.mem_map.1 hc
    exact hparts m (List.mem_of_mem_filter hm)

theorem evalList_eq_sum (a : Rat) (cs : List Expr) : RatPoly.evalList a (cs.map (valueAt ρ)) =
    ∑ k ∈ Finset.range cs.length, valueAt ρ (cs.getD k zero) * a ^ k := by
  rw [← RatPoly.evalList_range]
  congr 1
  refine List.ext_getElem (by simp) fun k hk _ => ?_
  have hk : k < cs.length := by simpa using hk
  simp [List.getD_eq_getElem?_getD, List.getElem?_eq_getElem hk]

/-- The leading coefficient is not zero, except for the zero polynomial. -/
theorem coefficients?_lead (h : x.coefficients? v = some cs) :
    cs.length = 1 ∨ ∃ c, cs.getLast? = some c ∧ c ≠ zero := by
  rw [coefficients?_eq] at h
  obtain ⟨ms, -, rfl⟩ := Option.map_eq_some_iff.1 h
  cases hdrop : dropZeroLead (collect ms) with
  | nil => exact .inl rfl
  | cons d ds =>
    obtain ⟨c, hc⟩ : ∃ c, (d :: ds).getLast? = some c := ⟨_, List.getLast?_eq_some_getLast (List.cons_ne_nil d ds)⟩
    refine .inr ⟨c, hc, ?_⟩
    rintro rfl
    cases isZero_getLast_dropZeroLead (hdrop ▸ hc)

end Reading

/-! ## Writing -/

theorem power_var (v : String) (k : Nat) : power (var v) (int k) = times 1 (powerFactors v k) := by
  match k with
  | 0 => exact power_var_zero v
  | 1 => exact power_var_one v
  | k + 2 => exact power_base ((monomial_powerFactors v (k + 2)).canonical _ (List.mem_singleton_self _))

theorem product_power_var {c : Rat} (hc : c ≠ 0) (v : String) (k : Nat) :
    product [rat c, power (var v) (int k)] = times c (powerFactors v k) := by
  rw [power_var]
  match k with
  | 0 => exact (product_rat_rat c 1).trans (by simp [powerFactors])
  | 1 => exact product_times c hc (monomial_powerFactors v 1)
  | k + 2 => exact product_times c hc (monomial_powerFactors v (k + 2))

/-- The terms are multiples of powers of the variable, with the exponents in order. -/
theorem polyTerms_eq (v : String) (k : Nat) (cs : List Rat) :
    ∃ ms : List (Nat × Rat), polyTerms v k cs = ms.map (fun m => times m.2 (powerFactors v m.1)) ∧
      (∀ m ∈ ms, m.2 ≠ 0 ∧ k ≤ m.1 ∧ m.1 < k + cs.length) ∧ (ms.map (·.1)).Nodup := by
  induction cs generalizing k with
  | nil => exact ⟨[], rfl, by simp, .nil⟩
  | cons c cs ih =>
    obtain ⟨ms, hms, hbounds, hnodup⟩ := ih (k + 1)
    have hlater : ∀ m ∈ ms, m.2 ≠ 0 ∧ k + 1 ≤ m.1 ∧ m.1 < k + (c :: cs).length := by
      intro m hm
      obtain ⟨hne, hlo, hhi⟩ := hbounds m hm
      refine ⟨hne, hlo, ?_⟩
      rw [List.length_cons]
      omega
    rw [polyTerms]
    split
    · exact ⟨ms, hms, fun m hm => ⟨(hlater m hm).1, Nat.le_of_succ_le (hlater m hm).2.1, (hlater m hm).2.2⟩, hnodup⟩
    · rename_i hc
      refine ⟨(k, c) :: ms, ?_, ?_, ?_⟩
      · rw [product_power_var hc, hms]
        rfl
      · refine List.forall_mem_cons.2 ⟨⟨hc, le_rfl, by simp⟩, fun m hm => ?_⟩
        exact ⟨(hlater m hm).1, Nat.le_of_succ_le (hlater m hm).2.1, (hlater m hm).2.2⟩
      · refine List.nodup_cons.2 ⟨fun hk => ?_, hnodup⟩
        obtain ⟨m, hm, rfl⟩ := List.mem_map.1 hk
        exact absurd (hlater m hm).2.1 (Nat.not_succ_le_self _)

theorem powerFactors_injective {j k : Nat} (h : times 1 (powerFactors v j) = times 1 (powerFactors v k)) : j = k := by
  have hfactors : powerFactors v j = powerFactors v k := by
    rw [← filter_factors_times 1 (monomial_powerFactors v j), h, filter_factors_times 1 (monomial_powerFactors v k)]
  match j, k with
  | 0, 0 | 1, 1 => rfl
  | 0, 1 | 0, _ + 2 | 1, 0 | 1, _ + 2 | _ + 2, 0 | _ + 2, 1 => simp [powerFactors] at hfactors
  | j + 2, k + 2 =>
    simp only [powerFactors, int, List.cons.injEq, pow.injEq, rat.injEq, true_and, and_true, Int.cast_natCast,
      Nat.cast_inj] at hfactors
    omega

/-- A positive power of the variable is one factor, whose degree is read. -/
theorem powerFactors_succ {k : Nat} (hk : k + 1 ≤ maxDegree) : ∃ f, powerFactors v (k + 1) = [f] ∧
    f.hasVar v = true ∧ varDegree? v f = some (k + 1) ∧ f.isProduct = false := by
  cases k with
  | zero => exact ⟨var v, rfl, by simp [hasVar, exist], by simp [varDegree?], rfl⟩
  | succ k =>
    have hk : k + 2 ≤ maxDegree := hk
    have hfits : fitsWord ((k + 2 : Nat) : Int) = true := by
      simp only [fitsWord, Bool.and_eq_true, decide_eq_true_eq]
      simp only [maxDegree] at hk
      omega
    have hsmall : (int (k + 2 : Nat)).smallInt? = some ((k + 2 : Nat) : Int) := by
      simp only [int, smallInt?, Rational.isInt, Rat.den_intCast, Rat.num_intCast, hfits]
      rfl
    refine ⟨pow (var v) (int (k + 2 : Nat)), rfl, by simp [hasVar, exist], ?_, rfl⟩
    simp only [varDegree?, if_true, hsmall, Option.bind_some, Int.natAbs_natCast, hk, decide_true, Bool.and_true,
      Int.natCast_nonneg]

/-- A multiple of a power of the variable is read as such. -/
theorem monomial?_times {c : Rat} (hc : c ≠ 0) {k : Nat} (hk : k ≤ maxDegree) :
    monomial? v (times c (powerFactors v k)) = some (k, rat c) := by
  have hrat : (rat c).hasVar v = false := rfl
  cases k with
  | zero => simp [powerFactors, monomial?, hrat]
  | succ k =>
    obtain ⟨f, hf, hvar, hdegree, hproduct⟩ := powerFactors_succ (v := v) hk
    have hterm : (times c [f]).hasVar v = true := by
      rw [hasVar_times]
      simp [hvar]
    rw [hf, monomial?_eq hterm, factors_times c (by simpa using hproduct)]
    by_cases hc1 : c = 1
    · simp [hc1, varDegreeAll?, hvar, hdegree, product_nil, one]
    · have hcoeff : product [rat c] = rat c := (product_times c hc .nil).trans (times_nil c)
      simp [hc1, varDegreeAll?, hvar, hrat, hdegree, hcoeff]

theorem mem_terms_ofTerms {us : List Expr} (hsum : ∀ u ∈ us, u.isSum = false) {t : Expr}
    (ht : t ∈ (ofTerms us).terms) : t = zero ∨ t ∈ us := by
  match us with
  | [] => exact .inl (List.mem_singleton.1 ht)
  | [u] => exact .inr (terms_of_notSum (hsum u (List.mem_singleton_self u)) ▸ ht)
  | u :: w :: us => exact .inr ((List.mergeSort_perm _ _).mem_iff.1 ht)

/-- The terms of a polynomial that is written are multiples of powers of the variable. -/
theorem terms_ofRatPoly {q : RatPoly} {t : Expr} (ht : t ∈ (ofRatPoly q v).terms) :
    t = zero ∨ ∃ c k, c ≠ 0 ∧ k < q.coeffs.length ∧ t = times c (powerFactors v k) := by
  obtain ⟨ms, hms, hbounds, hnodup⟩ := polyTerms_eq v 0 q.coeffs
  have hterm : ∀ t ∈ polyTerms v 0 q.coeffs, ∃ c k, c ≠ 0 ∧ k < q.coeffs.length ∧ t = times c (powerFactors v k) := by
    intro t ht
    obtain ⟨m, hm, rfl⟩ := List.mem_map.1 (hms ▸ ht)
    obtain ⟨hne, -, hlt⟩ := hbounds m hm
    exact ⟨m.2, m.1, hne, by simpa using hlt, rfl⟩
  have hrests : ((polyTerms v 0 q.coeffs).map fun t => t.splitCoeff.2).Nodup := by
    have hmap : (polyTerms v 0 q.coeffs).map (fun t => t.splitCoeff.2) =
        (ms.map (·.1)).map fun k => times 1 (powerFactors v k) := by
      rw [hms, List.map_map, List.map_map]
      exact List.map_congr_left fun m _ => by simp [(monomial_powerFactors v m.1).splitCoeff_times]
    rw [hmap]
    exact hnodup.map fun _ _ => powerFactors_injective
  have hsum : ∀ t ∈ polyTerms v 0 q.coeffs, t.isSum = false := by
    intro t ht
    obtain ⟨c, k, -, -, rfl⟩ := hterm t ht
    exact times_notSum (monomial_powerFactors v k) c
  have hcanon : ∀ t ∈ polyTerms v 0 q.coeffs, Canonical t ∧ t.isZero = false := by
    intro t ht
    obtain ⟨c, k, hc, -, rfl⟩ := hterm t ht
    exact ⟨(monomial_powerFactors v k).canonical_times hc, isZero_times hc (monomial_powerFactors v k)⟩
  obtain ⟨us, hperm, hus⟩ := sum_of_terms (fun t ht => (hcanon t ht).1) hsum (fun t ht => (hcanon t ht).2) hrests
  rw [ofRatPoly, hus] at ht
  exact (mem_terms_ofTerms (fun u hu => hsum u (hperm.mem_iff.1 hu)) ht).imp_right fun hu =>
    hterm t (hperm.mem_iff.1 hu)

/-- There is nothing to expand in a polynomial that is written. -/
theorem expand_ofRatPoly (q : RatPoly) (v : String) : (ofRatPoly q v).expand = ofRatPoly q v := by
  have hcanon : Canonical (ofRatPoly q v) :=
    (ofRatPoly_built v q).canonical.resolve_left (ofRatPoly_value (.ofVars fun _ => 0) q v).1.ne_undefined
  refine hcanon.expand_eq fun t ht => ?_
  rcases terms_ofRatPoly ht with rfl | ⟨c, k, hc, -, rfl⟩
  · rfl
  · exact expand_times_powerFactors hc v k

theorem exists_mapM_eq_some {α β : Type} {f : α → Option β} {P : β → Prop} {xs : List α}
    (h : ∀ x ∈ xs, ∃ y, f x = some y ∧ P y) : ∃ ys, xs.mapM f = some ys ∧ ∀ y ∈ ys, P y := by
  induction xs with
  | nil => exact ⟨[], rfl, by simp⟩
  | cons x xs ih =>
    obtain ⟨⟨y, hy, hPy⟩, hxs⟩ := List.forall_mem_cons.1 h
    obtain ⟨ys, hys, hPys⟩ := ih hxs
    exact ⟨y :: ys, by simp [List.mapM_cons, hy, hys], List.forall_mem_cons.2 ⟨hPy, hPys⟩⟩

/-- A polynomial that is written is read, as some polynomial, if its degree is not too large. -/
theorem exists_ratPoly?_ofRatPoly {q : RatPoly} (hq : q.coeffs.length ≤ maxDegree + 1) (v : String) :
    ∃ r, (ofRatPoly q v).ratPoly? v = some r := by
  have hmonomials : ∀ t ∈ (ofRatPoly q v).terms, ∃ m, monomial? v t = some m ∧ ∃ c, m.2 = rat c := by
    intro t ht
    rcases terms_ofRatPoly ht with rfl | ⟨c, k, hc, hk, rfl⟩
    · exact ⟨(0, rat 0), rfl, 0, rfl⟩
    · exact ⟨(k, rat c), monomial?_times hc (by omega), c, rfl⟩
  obtain ⟨ms, hms, hrational⟩ := exists_mapM_eq_some hmonomials
  have hcollect : ∀ c ∈ collect ms, ∃ q, c = rat q := by
    intro c hc
    obtain ⟨k, -, rfl⟩ := List.mem_map.1 hc
    have hrats : ∃ qs : List Rat, (ms.filter fun m => m.1 = k).map (·.2) = qs.map rat := by
      refine ⟨(ms.filter fun m => m.1 = k).map fun m => (m.2.rat?).getD 0, ?_⟩
      rw [List.map_map]
      refine List.map_congr_left fun m hm => ?_
      obtain ⟨c, hc⟩ := hrational m (List.mem_of_mem_filter hm)
      simp [hc, rat?]
    obtain ⟨qs, hqs⟩ := hrats
    exact ⟨qs.sum, by rw [hqs, sum_map_rat]⟩
  obtain ⟨cs, hcs⟩ : ∃ cs, (ofRatPoly q v).coefficients? v = some cs := by
    rw [coefficients?_eq, expand_ofRatPoly, hms]
    exact ⟨_, rfl⟩
  have hcsrat : ∀ c ∈ cs, ∃ q, rat? c = some q ∧ True := by
    rw [coefficients?_eq, expand_ofRatPoly, hms] at hcs
    have hcs := Option.some.inj hcs
    intro c hc
    rw [← hcs] at hc
    dsimp only at hc
    split at hc
    · obtain rfl := List.mem_singleton.1 hc
      exact ⟨0, rfl, trivial⟩
    · obtain ⟨q, rfl⟩ := hcollect c (Inherited.mem_dropZeroLead hc)
      exact ⟨q, rfl, trivial⟩
  obtain ⟨qs, hqs, -⟩ := exists_mapM_eq_some hcsrat
  exact ⟨.ofList qs, by rw [ratPoly?, hcs, Option.bind_some, hqs, Option.map_some]⟩

/-- A polynomial that is written is read as itself. -/
theorem ratPoly?_ofRatPoly {q : RatPoly} (hq : q.coeffs.length ≤ maxDegree + 1) (v : String) :
    (ofRatPoly q v).ratPoly? v = some q := by
  obtain ⟨r, hr⟩ := exists_ratPoly?_ofRatPoly hq v
  have hvar : Plain (fun _ => True) (var v) := trivial
  have hplain : Plain (fun _ => True) (ofRatPoly q v) := inherited_plain.ofRatPoly hvar q
  have hvalues : r = q := RatPoly.eq_of_eval_eq fun a => by
    obtain ⟨hd, hv⟩ := ofRatPoly_value (.ofVars fun _ => a) q v
    exact (hplain.ratPoly?_value hd hr).trans hv
  rw [hr, hvalues]

/-- Reading a polynomial is right wherever the expression has a value, and undoes writing one. -/
theorem coefficients_sound_and_complete :
    (∀ (x : Expr) (v : String) (cs : List Expr), x.coefficients? v = some cs →
      (∀ c ∈ cs, c.hasVar v = false) ∧ (cs.length = 1 ∨ ∃ c, cs.getLast? = some c ∧ c ≠ zero) ∧
        ∀ ρ, DefinedAt ρ x → (∀ c ∈ cs, DefinedAt ρ c) ∧
          valueAt ρ x = ∑ k ∈ Finset.range cs.length, valueAt ρ (cs.getD k zero) * ρ v ^ k) ∧
    (∀ (p : RatPoly) (v : String), p.degree?.all (· ≤ 64) = true → (ofRatPoly p v).ratPoly? v = some p) := by
  refine ⟨fun x v cs h => ⟨fun c hc => ?_, coefficients?_lead h, fun ρ hd => ?_⟩, fun p v hp => ?_⟩
  · exact (closed_varsIn.inherited.coefficients? (varsIn_true x) h c hc).2
  · have hplain : Plain (fun _ => True) x := plain_of_definedAt x hd (varsIn_true x)
    exact ⟨hplain.coefficients?_defined hd h, by rw [← evalList_eq_sum, hplain.coefficients?_value hd h]⟩
  · refine ratPoly?_ofRatPoly ?_ v
    unfold RatPoly.degree? at hp
    split at hp
    · simp_all
    · rename_i hcs
      rw [hcs]
      simpa [maxDegree, Nat.lt_succ_iff] using hp

/-- A square with a parameter in front is read, and `2 x^2 + 1` is written and read. -/
theorem coefficients_sound_and_complete_square :
    let x := mul [var "a", pow (add [rat 1, var "x"]) (rat 2)]
    let cs := [var "a", mul [rat 2, var "a"], var "a"]
    (x.coefficients? "x" = some cs ∧ (∀ c ∈ cs, c.hasVar "x" = false) ∧
      valueAt (fun _ => 3) x = ∑ k ∈ Finset.range 3, valueAt (fun _ => 3) (cs.getD k zero) * 3 ^ k) ∧
    (ofRatPoly (.ofList [1, 0, 2]) "x").ratPoly? "x" = some (.ofList [1, 0, 2]) := by
  intro x cs
  have hcs : x.coefficients? "x" = some cs := by cbv
  have hd : DefinedAt (fun _ => 3) x := by
    refine (defined_mul _).2 ?_
    simp only [List.forall_mem_cons, List.not_mem_nil, false_implies, implies_true, and_true]
    exact ⟨trivial, (defined_pow_int _ 2).2 ⟨by simp, .inl (by simp)⟩⟩
  obtain ⟨hread, hwrite⟩ := coefficients_sound_and_complete
  obtain ⟨hvar, -, hvalue⟩ := hread x "x" cs hcs
  exact ⟨⟨hcs, hvar, (hvalue _ hd).2⟩, hwrite (.ofList [1, 0, 2]) "x" (by decide)⟩

end Expr

end SymbolicSolver
