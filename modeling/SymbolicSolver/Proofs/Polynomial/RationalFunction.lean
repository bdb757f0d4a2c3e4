import Mathlib.Algebra.CharZero.Infinite
import Mathlib.Algebra.Polynomial.Roots
import Mathlib.Tactic.FieldSimp
import SymbolicSolver.Proofs.Value

/-!
# Rational functions

An expression that is defined at a point is a quotient of polynomials around it. So it is defined at infinitely many
points, and if each value is the same multiple of the one before, all values are the same: the leading coefficients
show that the multiple is one, and a rational function that does not change from one point to the next is constant.
-/

namespace SymbolicSolver.Expr

variable {x : Expr}

/-! ## Quotients of polynomials -/

/-- A quotient of polynomials gives the values of the expression wherever its denominator does not vanish, and it does
not vanish at `a`. -/
def QuotientAt (a : Rat) (x : Expr) : Prop :=
  ∃ n d : Polynomial ℚ, d.eval a ≠ 0 ∧
    ∀ b, d.eval b ≠ 0 → DefinedAt (fun _ => b) x ∧ valueAt (fun _ => b) x = n.eval b / d.eval b

namespace QuotientAt

variable {a : Rat}

theorem add_nil : QuotientAt a (add []) := ⟨0, 1, by simp, fun b _ => by simp⟩

theorem mul_nil : QuotientAt a (mul []) := ⟨1, 1, by simp, fun b _ => by simp⟩

theorem add_cons {t : Expr} {ts : List Expr} (ht : QuotientAt a t) (hts : QuotientAt a (add ts)) :
    QuotientAt a (add (t :: ts)) := by
  obtain ⟨n, d, hd, h⟩ := ht
  obtain ⟨m, e, he, hs⟩ := hts
  refine ⟨n * e + m * d, d * e, by simpa using ⟨hd, he⟩, fun b hb => ?_⟩
  rw [Polynomial.eval_mul, mul_ne_zero_iff] at hb
  obtain ⟨hdef, hv⟩ := h b hb.1
  obtain ⟨hdefs, hvs⟩ := hs b hb.2
  refine ⟨⟨hdef, hdefs⟩, ?_⟩
  rw [valueAt, eval_add_cons, ← valueAt, ← valueAt, hv, hvs, Polynomial.eval_add, Polynomial.eval_mul,
    Polynomial.eval_mul, Polynomial.eval_mul, div_add_div _ _ hb.1 hb.2, mul_comm (d.eval b) (m.eval b)]

theorem mul_cons {f : Expr} {fs : List Expr} (hf : QuotientAt a f) (hfs : QuotientAt a (mul fs)) :
    QuotientAt a (mul (f :: fs)) := by
  obtain ⟨n, d, hd, h⟩ := hf
  obtain ⟨m, e, he, hs⟩ := hfs
  refine ⟨n * m, d * e, by simpa using ⟨hd, he⟩, fun b hb => ?_⟩
  rw [Polynomial.eval_mul, mul_ne_zero_iff] at hb
  obtain ⟨hdef, hv⟩ := h b hb.1
  obtain ⟨hdefs, hvs⟩ := hs b hb.2
  refine ⟨⟨hdef, hdefs⟩, ?_⟩
  rw [valueAt, eval_mul_cons, ← valueAt, ← valueAt, hv, hvs, Polynomial.eval_mul, Polynomial.eval_mul,
    div_mul_div_comm]

/-- For a negative exponent numerator and denominator change places; the base does not vanish at `a`. -/
theorem pow {b : Expr} (hb : QuotientAt a b) {k : Int} (hk : 0 ≤ k ∨ valueAt (fun _ => a) b ≠ 0) :
    QuotientAt a (pow b (.rat k)) := by
  obtain ⟨n, d, hd, h⟩ := hb
  obtain ⟨j, rfl | rfl⟩ := k.eq_nat_or_neg
  · refine ⟨n ^ j * d, d ^ j * d, by simp [hd], fun c hc => ?_⟩
    rw [Polynomial.eval_mul, mul_ne_zero_iff] at hc
    obtain ⟨hdef, hv⟩ := h c hc.2
    refine ⟨(defined_pow_int b j).2 ⟨hdef, .inl (Int.natCast_nonneg j)⟩, ?_⟩
    rw [valueAt, eval_pow_int, ← valueAt, hv, zpow_natCast, div_pow, Polynomial.eval_mul, Polynomial.eval_mul,
      Polynomial.eval_pow, Polynomial.eval_pow, mul_div_mul_right _ _ hc.2]
  · have hna : n.eval a ^ j ≠ 0 := by
      by_cases hj : j = 0
      · simp [hj]
      · have hne := hk.resolve_left (by omega)
        rw [(h a hd).2] at hne
        exact pow_ne_zero _ (div_ne_zero_iff.1 hne).1
    refine ⟨d ^ j * d, n ^ j * d, by simpa [hd] using hna, fun c hc => ?_⟩
    rw [Polynomial.eval_mul, mul_ne_zero_iff, Polynomial.eval_pow] at hc
    obtain ⟨hdef, hv⟩ := h c hc.2
    have hvalue : 0 ≤ -(j : Int) ∨ valueAt (fun _ => c) b ≠ 0 := by
      by_cases hj : j = 0
      · exact .inl (by omega)
      · rw [hv]
        exact .inr (div_ne_zero (ne_zero_pow hj hc.1) hc.2)
    refine ⟨(defined_pow_int b _).2 ⟨hdef, hvalue⟩, ?_⟩
    rw [valueAt, eval_pow_int, ← valueAt, hv, zpow_neg, zpow_natCast, div_pow, inv_div, Polynomial.eval_mul,
      Polynomial.eval_mul, Polynomial.eval_pow, Polynomial.eval_pow, mul_div_mul_right _ _ hc.2]

end QuotientAt

mutual

/-- An expression that is defined at a point is a quotient of polynomials. -/
theorem quotientAt_of_definedAt {a : Rat} : ∀ x : Expr, DefinedAt (fun _ => a) x → QuotientAt a x
  | rat c, _ => ⟨.C c, 1, by simp, fun b _ => by simp⟩
  | var s, _ => ⟨.X, 1, by simp, fun b _ => by simp [Reading.ofVars]⟩
  | add ts, h => quotientAt_add ts ((defined_add ts).1 h)
  | mul fs, h => quotientAt_mul fs ((defined_mul fs).1 h)
  | pow b x, h => by
    obtain ⟨k, rfl⟩ := h.exponent_int
    obtain ⟨hb, hk⟩ := (defined_pow_int b k).1 h
    exact (quotientAt_of_definedAt b hb).pow hk
  | fn f x, h => by simp [Defined, Reading.ofVars] at h
  | pi, h | e, h | i, h | infinity, h | undefined, h => h.elim

theorem quotientAt_add {a : Rat} : ∀ ts : List Expr, (∀ t ∈ ts, DefinedAt (fun _ => a) t) → QuotientAt a (add ts)
  | [], _ => .add_nil
  | t :: ts, h => by
    obtain ⟨ht, hts⟩ := List.forall_mem_cons.1 h
    exact (quotientAt_of_definedAt t ht).add_cons (quotientAt_add ts hts)

theorem quotientAt_mul {a : Rat} : ∀ fs : List Expr, (∀ f ∈ fs, DefinedAt (fun _ => a) f) → QuotientAt a (mul fs)
  | [], _ => .mul_nil
  | f :: fs, h => by
    obtain ⟨hf, hfs⟩ := List.forall_mem_cons.1 h
    exact (quotientAt_of_definedAt f hf).mul_cons (quotientAt_mul fs hfs)

end

/-- What is defined at one point is defined at infinitely many. -/
theorem infinite_definedAt {a : Rat} (h : DefinedAt (fun _ => a) x) :
    {b : Rat | DefinedAt (fun _ => b) x}.Infinite := by
  obtain ⟨n, d, hd, hx⟩ := quotientAt_of_definedAt x h
  have hd0 : d ≠ 0 := by
    rintro rfl
    simp at hd
  exact (Polynomial.finite_setOfPred_isRoot hd0).infinite_compl.mono fun b hb => (hx b hb).1

/-! ## Neighbouring values -/

open Polynomial

theorem exists_nonroots_above {d : ℚ[X]} (hd : d ≠ 0) : ∃ b : ℚ, ∀ x, b ≤ x → d.eval x ≠ 0 := by
  obtain ⟨b, hb⟩ := d.roots.toFinset.bddAbove
  refine ⟨b + 1, fun x hx hroot => ?_⟩
  have hmem : x ∈ (d.roots.toFinset : Set ℚ) := by simpa [hd] using hroot
  have hle := hb hmem
  linarith

/-- What is defined at one point is defined at two neighbouring points. -/
theorem exists_neighbours {a : Rat} (h : DefinedAt (fun _ => a) x) :
    ∃ b : Rat, DefinedAt (fun _ => b) x ∧ DefinedAt (fun _ => b + 1) x := by
  obtain ⟨n, d, hd, hx⟩ := quotientAt_of_definedAt x h
  obtain ⟨b, hb⟩ := exists_nonroots_above (d := d) (by rintro rfl; simp at hd)
  exact ⟨b, (hx b (hb b le_rfl)).1, (hx (b + 1) (hb (b + 1) (by linarith))).1⟩

/-- The leading coefficient does not change if the origin is moved. -/
theorem multiple_eq_one {n d : ℚ[X]} (hn : n ≠ 0) (hd : d ≠ 0) {q : ℚ}
    (h : n.comp (X + C 1) * d = C q * n * d.comp (X + C 1)) : q = 1 := by
  have hlead (p : ℚ[X]) : (p.comp (X + C 1)).leadingCoeff = p.leadingCoeff := by
    rw [leadingCoeff_comp (by rw [natDegree_X_add_C]; exact one_ne_zero), leadingCoeff_X_add_C, one_pow, mul_one]
  have hcoeff := congrArg leadingCoeff h
  rw [leadingCoeff_mul, leadingCoeff_mul, leadingCoeff_mul, hlead, hlead, leadingCoeff_C] at hcoeff
  have hne : n.leadingCoeff * d.leadingCoeff ≠ 0 :=
    mul_ne_zero (leadingCoeff_ne_zero.2 hn) (leadingCoeff_ne_zero.2 hd)
  exact mul_right_cancel₀ hne (by linarith)

/-- A quotient of polynomials of which each value is the one before is constant. -/
theorem eq_C_mul_of_shift {n d : ℚ[X]} (hd : d ≠ 0)
    (h : n.comp (X + C 1) * d = n * d.comp (X + C 1)) : ∃ c, n = C c * d := by
  obtain ⟨b, hb⟩ := exists_nonroots_above hd
  have hne (m : ℕ) : d.eval (b + (m : ℚ)) ≠ 0 := hb _ (by simp)
  refine ⟨n.eval b / d.eval b, eq_of_infinite_eval_eq _ _ ?_⟩
  have hvalues (m : ℕ) : n.eval (b + (m : ℚ)) = n.eval b / d.eval b * d.eval (b + (m : ℚ)) := by
    induction m with
    | zero => simp [div_mul_cancel₀ _ (hb b le_rfl)]
    | succ m ih =>
      have hstep := congrArg (Polynomial.eval (b + (m : ℚ))) h
      simp only [Polynomial.eval_mul, eval_comp, Polynomial.eval_add, eval_X, eval_C] at hstep
      rw [ih] at hstep
      refine mul_right_cancel₀ (hne m) ?_
      push_cast
      rw [← add_assoc, hstep]
      ring
  have hinjective : Function.Injective fun m : ℕ => b + (m : ℚ) := fun m k hmk => by simpa using hmk
  refine (Set.infinite_range_of_injective hinjective).mono ?_
  rintro _ ⟨m, rfl⟩
  simpa using hvalues m

/-- If each value is the same multiple of the one before, there is only one value. -/
theorem constant_of_multiple {a q : Rat} (ha : DefinedAt (fun _ => a) x) (hne : valueAt (fun _ => a) x ≠ 0)
    (h : ∀ b : Rat, DefinedAt (fun _ => b) x → DefinedAt (fun _ => b + 1) x → valueAt (fun _ => b) x ≠ 0 →
      valueAt (fun _ => b + 1) x = q * valueAt (fun _ => b) x) :
    ∃ c, ∀ b : Rat, DefinedAt (fun _ => b) x → valueAt (fun _ => b) x = c := by
  obtain ⟨n, d, hda, hx⟩ := quotientAt_of_definedAt x ha
  have hd : d ≠ 0 := by
    rintro rfl
    simp at hda
  have hn : n ≠ 0 := by
    rintro rfl
    rw [(hx a hda).2] at hne
    simp at hne
  have hshift (p : ℚ[X]) : p ≠ 0 → p.comp (X + C 1) ≠ 0 := by
    intro hp hzero
    have hback := congrArg (·.comp (X - C 1)) hzero
    simp only [comp_assoc, zero_comp] at hback
    simp only [add_comp, X_comp, C_comp, sub_add_cancel, comp_X] at hback
    exact hp hback
  -- The equation for the values holds at infinitely many points, and so for the polynomials.
  have hall : n.comp (X + C 1) * d = C q * n * d.comp (X + C 1) := by
    have hprod : n * d * d.comp (X + C 1) ≠ 0 := mul_ne_zero (mul_ne_zero hn hd) (hshift d hd)
    refine eq_of_infinite_eval_eq _ _ ((finite_setOfPred_isRoot hprod).infinite_compl.mono fun b hb => ?_)
    have hb' : n.eval b ≠ 0 ∧ d.eval b ≠ 0 ∧ d.eval (b + 1) ≠ 0 := by
      simpa [IsRoot, and_assoc] using hb
    obtain ⟨hnb, hdb, hdb1⟩ := hb'
    obtain ⟨hdef, hv⟩ := hx b hdb
    obtain ⟨hdef1, hv1⟩ := hx (b + 1) hdb1
    have hmultiple := h b hdef hdef1 (by rw [hv]; exact div_ne_zero hnb hdb)
    rw [hv, hv1, div_eq_iff hdb1] at hmultiple
    have heq : n.eval (b + 1) * d.eval b = q * n.eval b * d.eval (b + 1) := by
      rw [hmultiple]
      field_simp
    simpa using heq
  obtain rfl := multiple_eq_one hn hd hall
  obtain ⟨c, rfl⟩ := eq_C_mul_of_shift hd (by simpa using hall)
  refine ⟨c, fun b hb => ?_⟩
  obtain ⟨m, e, heb, hy⟩ := quotientAt_of_definedAt x hb
  have he : e ≠ 0 := by
    rintro rfl
    simp at heb
  have hsame : m * d = C c * d * e := by
    have hprod : d * e ≠ 0 := mul_ne_zero hd he
    refine eq_of_infinite_eval_eq _ _ ((finite_setOfPred_isRoot hprod).infinite_compl.mono fun z hz => ?_)
    have hz' : d.eval z ≠ 0 ∧ e.eval z ≠ 0 := by simpa [IsRoot] using hz
    have hvz := (hx z hz'.1).2.symm.trans (hy z hz'.2).2
    rw [div_eq_div_iff hz'.1 hz'.2] at hvz
    simpa using hvz.symm
  have hm : m = C c * e := mul_right_cancel₀ hd (by rw [hsame]; ring)
  rw [(hy b heb).2, hm, Polynomial.eval_mul, eval_C, mul_div_assoc, div_self heb, mul_one]

end SymbolicSolver.Expr
