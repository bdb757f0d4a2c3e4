import SymbolicSolver.Calculus.Summation
import SymbolicSolver.Proofs.Polynomial.RationalFunction
import SymbolicSolver.Proofs.Polynomial.Terms

/-!
# Quotients of neighbouring terms

A sum is taken for a geometric one if the quotient of neighbouring terms does not contain the index. For a rational
multiple of a power `r ^ k` the exponents of the quotient cancel, and what is left has the value `r`; the coefficient
cancels too, but if it is very large only in value, since its reciprocal stands unevaluated. For a rational expression
that takes two values there is no such quotient, since a value that does not depend on the index would be one.
-/

namespace SymbolicSolver.Expr

variable {f : Expr} {name : String} {c r : Rat}

/-! ## Rational expressions -/

/-- The value at an assignment depends on the one variable only. -/
theorem Plain.update {x : Expr} (hx : Plain (· = name) x) (b : Rat) :
    (DefinedAt (Function.update (fun _ => 0) name b) x ↔ DefinedAt (fun _ => b) x) ∧
      valueAt (Function.update (fun _ => 0) name b) x = valueAt (fun _ => b) x :=
  hx.reading fun s hs => by simp [Reading.ofVars, hs]

/-- The quotient has the value of the next term over that of the term. -/
theorem Plain.quotient_value (hf : Plain (· = name) f) {b : Rat} (hb : DefinedAt (fun _ => b) f)
    (hb1 : DefinedAt (fun _ => b + 1) f) (hne : valueAt (fun _ => b) f ≠ 0) :
    DefinedAt (Function.update (fun _ => 0) name b) (f.subst name (var name + one) / f) ∧
      valueAt (Function.update (fun _ => 0) name b) (f.subst name (var name + one) / f) =
        valueAt (fun _ => b + 1) f / valueAt (fun _ => b) f := by
  have hone : DefinedAt (Function.update (fun _ => (0 : Rat)) name b) one := trivial
  have hnext := Defined.plus (defined_var name) hone
  have hvalue : valueAt (Function.update (fun _ => 0) name b) (var name + one) = b + 1 := by
    rw [valueAt, hnext.2]
    simp [Reading.ofVars, one]
  obtain ⟨hd, hv⟩ := subst_value (ρ := Function.update (fun _ => 0) name b) (s := name) (x := f) hnext.1 (by
    rw [hvalue, Function.update_idem]
    exact (hf.update (b + 1)).1.2 hb1)
  rw [hvalue, Function.update_idem, (hf.update (b + 1)).2] at hv
  have hquotient := Defined.over hd ((hf.update b).1.2 hb) (by rw [← valueAt, (hf.update b).2]; exact hne)
  refine ⟨hquotient.1, hquotient.2.trans ?_⟩
  rw [← valueAt, ← valueAt, hv, (hf.update b).2]

/-- A ratio that is found has this value. -/
theorem ratio?_value (hf : Plain (· = name) f) {q : Expr} (h : f.ratio? name = some q) {b : Rat}
    (hb : DefinedAt (fun _ => b) f) (hb1 : DefinedAt (fun _ => b + 1) f) (hne : valueAt (fun _ => b) f ≠ 0)
    (ρ : String → Rat) :
    DefinedAt ρ q ∧ valueAt ρ q = valueAt (fun _ => b + 1) f / valueAt (fun _ => b) f := by
  have hx : Plain (· = name) (f.subst name (var name + one) / f) :=
    inherited_plain.quotient (hf.subst (q := (· = name)) (inherited_plain.plus rfl trivial) fun v hv _ => hv) hf
  rw [ratio?] at h
  split at h
  · rename_i htest
    obtain rfl := Option.some.inj h
    simp only [Bool.and_eq_true, Bool.not_eq_true'] at htest
    -- No variable is left, neither the index nor any other.
    have hnone : VarsIn (fun _ => False) (f.subst name (var name + one) / f).simplify :=
      forall_mem_freeVars.1 fun s hs => forall_mem_freeVars.2 ((varsIn_ne_iff name _).2 htest.1.1) s hs
        (forall_mem_freeVars.2 hx.simplify.varsIn s hs)
    obtain ⟨hd, hv⟩ := hf.quotient_value hb hb1 hne
    obtain ⟨hdq, hvq⟩ := hx.simplify_keepsValue _ hd
    have hread := (hx.simplify.of_varsIn hnone).reading (r := .ofVars ρ)
      (s := .ofVars (Function.update (fun _ => 0) name b)) fun _ h => h.elim
    exact ⟨hread.1.2 hdq, hread.2.trans (hvq.trans hv)⟩
  · cases h

/-- A rational expression that takes two values is no geometric sequence. -/
theorem ratio?_eq_none (hf : Plain (· = name) f) {b c : Rat} (hb : DefinedAt (fun _ => b) f)
    (hc : DefinedAt (fun _ => c) f) (hne : valueAt (fun _ => b) f ≠ valueAt (fun _ => c) f) :
    f.ratio? name = none := by
  cases hratio : f.ratio? name with
  | none => rfl
  | some q =>
    have hmultiple (a : Rat) (ha : DefinedAt (fun _ => a) f) (ha1 : DefinedAt (fun _ => a + 1) f)
        (hne : valueAt (fun _ => a) f ≠ 0) : valueAt (fun _ => a + 1) f =
          valueAt (fun _ => 0) q * valueAt (fun _ => a) f := by
      rw [(ratio?_value hf hratio ha ha1 hne fun _ => 0).2, div_mul_cancel₀ _ hne]
    obtain ⟨z, hz, hzne⟩ : ∃ z, DefinedAt (fun _ => z) f ∧ valueAt (fun _ => z) f ≠ 0 := by
      by_cases h0 : valueAt (fun _ => b) f = 0
      · exact ⟨c, hc, fun hc0 => hne (h0.trans hc0.symm)⟩
      · exact ⟨b, hb, h0⟩
    obtain ⟨v, hv⟩ := constant_of_multiple hz hzne hmultiple
    exact absurd ((hv b hb).trans (hv c hc).symm) hne

/-! ## Exponents with the index -/

/-- An exponent under which a rational stands unevaluated. -/
structure SymbolicExponent (y : Expr) : Prop where
  ne_undefined : y ≠ undefined
  notRat : y.rat? = none
  finite : y.infinitySign? = none

theorem SymbolicExponent.power {y : Expr} (hy : SymbolicExponent y) (hr : r ≠ 1) (k : Nat) :
    powerWithin (k + 1) (rat r) y = pow (rat r) y := by
  have hz := isZero_of_rat?_eq_none hy.notRat
  have ho := isOne_of_rat?_eq_none hy.notRat
  obtain ⟨hu, hrat, hfinite⟩ := hy
  rw [powerWithin]
  unfold powerStep
  rw [if_neg (by simp [hu]), hz, ho, if_neg Bool.false_ne_true, if_neg Bool.false_ne_true,
    if_neg (by simp [isOne, hr]), hfinite]
  cases y <;> simp_all [powerOfBase, infinitySign?, rat?]

theorem symbolicExponent_var (name : String) : SymbolicExponent (var name) := ⟨by simp, rfl, rfl⟩

theorem symbolicExponent_add (ts : List Expr) : SymbolicExponent (add ts) := ⟨by simp, rfl, rfl⟩

/-- Minus the index. -/
def opposite (name : String) : Expr := mul [rat (-1), var name]

theorem symbolicExponent_opposite (name : String) : SymbolicExponent (opposite name) := ⟨by simp [opposite], rfl, rfl⟩

/-- A rational stands behind another term. -/
theorem sortTerms_before_rat {t : Expr} (ht : t.termPlace = 0) (q : Rat) : sortTerms [t, rat q] = [t, rat q] := by
  refine sortTerms_of_sorted (List.pairwise_pair.2 ?_)
  have hplace : compare t.termPlace (rat q).termPlace = .lt := by rw [ht]; rfl
  rw [compareTerms, hplace]
  rfl

theorem index_add_one (name : String) : sum [var name, one] = add [var name, rat 1] := by
  rw [← sortTerms_before_rat (t := var name) (by simp [termPlace, infinitySign?]) 1]
  simp [sum, flattenTerms, TermGroups.insert, TermGroups.empty, one, ofTerms, infinitySign?, splitCoeff, collectTerm,
    withCoeff, isOne]

theorem neg_one_add_opposite (name : String) :
    sum [rat (-1), opposite name] = add [opposite name, rat (-1)] := by
  have hone : (-1 : Rat) ≠ 1 := by norm_num
  rw [← sortTerms_before_rat (t := opposite name) (by simp [opposite, termPlace, infinitySign?]) (-1)]
  simp [opposite, sum, flattenTerms, TermGroups.insert, TermGroups.empty, ofTerms, infinitySign?, splitCoeff,
    collectTerm, withCoeff, isOne, ofFactors, hone]

theorem next_add_opposite (name : String) : sum [add [var name, rat 1], opposite name] = rat 1 := by
  simp [opposite, sum, flattenTerms, TermGroups.insert, TermGroups.empty, ofTerms, infinitySign?, splitCoeff,
    collectTerm, withCoeff, isOne, ofFactors]

theorem next_add_previous (name : String) :
    sum [add [var name, rat 1], add [opposite name, rat (-1)]] = rat 0 := by
  simp [opposite, sum, flattenTerms, TermGroups.insert, TermGroups.empty, zero, ofTerms, infinitySign?, splitCoeff,
    collectTerm, withCoeff, isOne, ofFactors]

/-! ## Geometric terms -/

theorem power_symbolic (hr : r ≠ 1) {y : Expr} (hy : SymbolicExponent y) : power (rat r) y = pow (rat r) y := by
  obtain ⟨k, hk⟩ := roundsFor_eq ((rat r).size + y.size)
  rw [power, hk, hy.power hr]

/-- A power of `r` with a coefficient. -/
theorem productWithin_exponential (hc : c ≠ 0) (hr : r ≠ 1) {y : Expr} (hy : SymbolicExponent y) (k : Nat) :
    productWithin (k + 2) [rat c, pow (rat r) y] = times c [pow (rat r) y] := by
  simp [productWithin, productStep, flattenFactors, collectBases, FactorGroups.insertBase, collectBase, hy.power hr,
    collectRebuilt, FactorGroups.insertFactor, multiplyOut, hc, isProduct, assemble, sortFactors, times]

theorem product_exponential (hc : c ≠ 0) (hr : r ≠ 1) {y : Expr} (hy : SymbolicExponent y) :
    rat c * power (rat r) y = times c [pow (rat r) y] := by
  obtain ⟨j, hj⟩ := roundsFor_eq (sizeAll [rat c, pow (rat r) y])
  have hprod := productWithin_exponential hc hr hy (j + 2)
  rw [power_symbolic hr hy, ← hprod, ← hj]
  rfl

theorem zero_exponential (hr : r ≠ 1) {y : Expr} (hy : SymbolicExponent y) : rat 0 * power (rat r) y = rat 0 := by
  obtain ⟨j, hj⟩ := roundsFor_eq (sizeAll [rat 0, pow (rat r) y])
  have hprod : rat 0 * power (rat r) y = productWithin (j + 4) [rat 0, pow (rat r) y] := by
    rw [power_symbolic hr hy, ← hj]
    rfl
  rw [hprod]
  simp [productWithin, productStep, flattenFactors, collectBases, FactorGroups.insertBase, collectBase, hy.power hr,
    collectRebuilt, FactorGroups.insertFactor, multiplyOut, zero]

/-- Collected factors that are a power of `r` with exponent one or zero. -/
theorem productWithin_collapsed {xs : List Expr} (hany : (flattenFactors xs).any (· = undefined) = false)
    {y : Rat} (hbases : collectBases (flattenFactors xs) = ⟨c, false, [(rat r, rat y)]⟩) (hy : y = 0 ∨ y = 1)
    (hc : c ≠ 0) (hr : r ≠ 0) (k : Nat) :
    productWithin (k + 2) xs = rat (c * r ^ y.num) := by
  have hpower : powerWithin (k + 1) (rat r) (rat y) = rat (r ^ y.num) := by
    rw [powerWithin]
    unfold powerStep
    rcases hy with rfl | rfl <;> simp [isZero, isOne, one]
  have hne : r ^ y.num ≠ 0 := zpow_ne_zero _ hr
  simp [productWithin, productStep, hany, hbases, hpower, collectRebuilt, FactorGroups.insertFactor, multiplyOut, hc, hne,
    assemble, sortFactors, ofFactors]

/-- The reciprocal of a power of `r`. -/
theorem powerWithin_exponential_inverse (hr : r ≠ 1) (name : String) (k : Nat) :
    powerWithin (k + 3) (pow (rat r) (var name)) (rat (-1)) = pow (rat r) (opposite name) := by
  have hmul : productWithin (k + 2) [var name, rat (-1)] = opposite name := by
    have hone : powerWithin (k + 1) (var name) one = var name := by
      rw [powerWithin]
      unfold powerStep
      simp [one, isZero, isOne]
    have hne : (-1 : Rat) ≠ 1 := by norm_num
    simp [productWithin, productStep, flattenFactors, collectBases, FactorGroups.insertBase, collectBase, hone,
      collectRebuilt, FactorGroups.insertFactor, multiplyOut, isProduct, assemble, sortFactors, ofFactors, opposite, hne]
  have hinteger : (rat (-1)).isInteger = true := by decide
  have hne : (-1 : Rat) ≠ 1 := by norm_num
  rw [powerWithin]
  unfold powerStep
  rw [if_neg (by simp), if_neg (by simp [isZero]), if_neg (by simp [isOne, hne]), if_neg (by simp [isOne])]
  simp [infinitySign?, powerOfBase, hinteger, hmul, (symbolicExponent_opposite name).power hr]

/-- The reciprocal of a rational, computed or not. -/
theorem powerWithin_inverse_rat (hc : c ≠ 0) (hc1 : c ≠ 1) (k : Nat) :
    powerWithin (k + 1) (rat c) (rat (-1)) = rat c⁻¹ ∨
      ∀ j, powerWithin (j + 1) (rat c) (rat (-1)) = pow (rat c) (rat (-1)) := by
  have hstep (j : Nat) : powerWithin (j + 1) (rat c) (rat (-1)) =
      if powerFits c (-1) then rat c⁻¹ else pow (rat c) (rat (-1)) := by
    have hcast : (-1 : Rat) = ((-1 : Int) : Rat) := by norm_num
    rw [powerWithin, hcast, powerStep_rat _ _ hc1 (by decide) (by decide), rationalPower, if_neg hc,
      if_pos (Rat.den_intCast _), Rat.num_intCast, Rational.power_eq_zpow, zpow_neg_one]
  by_cases hfits : powerFits c (-1) = true
  · exact .inl (by rw [hstep, if_pos hfits])
  · exact .inr fun j => by rw [hstep, if_neg hfits]

theorem geometric_subst (hc : c ≠ 0) (hr : r ≠ 1) (name : String) :
    (times c [pow (rat r) (var name)]).subst name (var name + one) =
      times c [pow (rat r) (add [var name, rat 1])] := by
  have hnext : var name + one = add [var name, rat 1] := index_add_one name
  have hpow : (pow (rat r) (var name)).subst name (var name + one) = power (rat r) (add [var name, rat 1]) := by
    rw [subst_pow, subst_var, if_pos rfl, hnext]
    rfl
  have hprod := product_exponential hc hr (symbolicExponent_add [var name, rat 1])
  by_cases hc1 : c = 1
  · rw [hc1, times_one_singleton, times_one_singleton, hpow, power_symbolic hr (symbolicExponent_add _)]
  · rw [times_of_ne_one hc1 (by simp), subst_mul, List.map_cons, List.map_cons, List.map_nil, hpow]
    exact hprod

/-! ### Quotients of neighbouring terms -/

/-- The exponent of the next term. -/
def nextIndex (name : String) : Expr := add [var name, rat 1]

theorem product_eq_within (xs : List Expr) : ∃ j, product xs = productWithin (j + 2) xs :=
  (roundsFor_eq (sizeAll xs)).imp' (· + 2) fun j hj => by rw [product, hj]

/-- Factors that leave a power of `r` with exponent one or zero. -/
theorem product_collapsed {xs : List Expr} (hany : (flattenFactors xs).any (· = undefined) = false)
    {y : Rat} (hbases : collectBases (flattenFactors xs) = ⟨c, false, [(rat r, rat y)]⟩) (hy : y = 0 ∨ y = 1)
    (hc : c ≠ 0) (hr : r ≠ 0) : product xs = rat (c * r ^ y.num) := by
  obtain ⟨j, hj⟩ := product_eq_within xs
  rw [hj, productWithin_collapsed hany hbases hy hc hr]

/-- Without a coefficient the powers cancel. -/
theorem product_powers (hr0 : r ≠ 0) (name : String) :
    product [pow (rat r) (nextIndex name), pow (rat r) (opposite name)] = rat r := by
  have hbases : collectBases (flattenFactors [pow (rat r) (nextIndex name), pow (rat r) (opposite name)]) =
      ⟨1, false, [(rat r, rat 1)]⟩ := by
    simp [flattenFactors, collectBases, FactorGroups.insertBase, collectBase, nextIndex, next_add_opposite]
  rw [product_collapsed (by simp [flattenFactors]) hbases (.inr rfl) one_ne_zero hr0]
  simp

/-- A reciprocal that is computed cancels the coefficient. -/
theorem product_computed (hc : c ≠ 0) (hr0 : r ≠ 0) (name : String) :
    product [mul [rat c, pow (rat r) (nextIndex name)], mul [rat c⁻¹, pow (rat r) (opposite name)]] = rat r := by
  have hbases : collectBases (flattenFactors
      [mul [rat c, pow (rat r) (nextIndex name)], mul [rat c⁻¹, pow (rat r) (opposite name)]]) =
        ⟨1, false, [(rat r, rat 1)]⟩ := by
    simp [flattenFactors, collectBases, FactorGroups.insertBase, collectBase, nextIndex, next_add_opposite, hc]
  rw [product_collapsed (by simp [flattenFactors]) hbases (.inr rfl) one_ne_zero hr0]
  simp

/-- A reciprocal that stands is one more power of `c`. -/
theorem product_sameBase (hc : c ≠ 0) (name : String) :
    product [mul [rat c, pow (rat c) (nextIndex name)], pow (rat c) (add [opposite name, rat (-1)])] = rat c := by
  have hbases : collectBases (flattenFactors
      [mul [rat c, pow (rat c) (nextIndex name)], pow (rat c) (add [opposite name, rat (-1)])]) =
        ⟨c, false, [(rat c, rat 0)]⟩ := by
    simp [flattenFactors, collectBases, FactorGroups.insertBase, collectBase, nextIndex, next_add_previous]
  rw [product_collapsed (by simp [flattenFactors]) hbases (.inl rfl) hc hc]
  simp

/-- A reciprocal that stands beside a power of another base stays, in whatever order the two are. -/
theorem product_uncomputed (hc : c ≠ 0) (hr0 : r ≠ 0) (hcr : c ≠ r) (name : String)
    (hstands : ∀ j, powerWithin (j + 1) (rat c) (rat (-1)) = pow (rat c) (rat (-1))) {fs : List Expr}
    (hfs : fs = [pow (rat c) (rat (-1)), pow (rat r) (opposite name)] ∨
      fs = [pow (rat r) (opposite name), pow (rat c) (rat (-1))]) :
    product [mul [rat c, pow (rat r) (nextIndex name)], mul fs] = times (c * r) [pow (rat c) (rat (-1))] := by
  obtain ⟨j, hj⟩ := product_eq_within [mul [rat c, pow (rat r) (nextIndex name)], mul fs]
  have hrone : powerWithin (j + 1) (rat r) (rat 1) = rat r := by
    rw [powerWithin]
    unfold powerStep
    simp [isZero, isOne]
  have hne : c * r ≠ 0 := mul_ne_zero hc hr0
  have hrc : ¬ r = c := fun h => hcr h.symm
  rw [hj]
  rcases hfs with rfl | rfl <;>
    simp [productWithin, productStep, flattenFactors, collectBases, FactorGroups.insertBase, collectBase, hrc,
      nextIndex, next_add_opposite, hrone, hstands, collectRebuilt, FactorGroups.insertFactor, multiplyOut, hne,
      isProduct, assemble, sortFactors, times]

/-- The reciprocal of a term is a product of reciprocals. -/
theorem powerWithin_scaled_inverse (hc1 : c ≠ 1) (hr : r ≠ 1) (name : String) (k : Nat) :
    powerWithin (k + 4) (times c [pow (rat r) (var name)]) (rat (-1)) =
      productWithin (k + 3) [powerWithin (k + 3) (rat c) (rat (-1)), pow (rat r) (opposite name)] := by
  have hinteger : (rat (-1)).isInteger = true := by decide
  have hne : (-1 : Rat) ≠ 1 := by norm_num
  rw [times_of_ne_one hc1 (by simp), powerWithin]
  unfold powerStep
  rw [if_neg (by simp), if_neg (by simp [isZero]), if_neg (by simp [isOne, hne]), if_neg (by simp [isOne])]
  simp [infinitySign?, powerOfBase, hinteger, powerWithin_exponential_inverse hr name k]

/-- The reciprocal of a term whose coefficient is its base. -/
theorem productWithin_sameBase (hc1 : c ≠ 1) (name : String) (k : Nat) :
    productWithin (k + 3) [pow (rat c) (rat (-1)), pow (rat c) (opposite name)] =
      pow (rat c) (add [opposite name, rat (-1)]) := by
  have hpower := (symbolicExponent_add [opposite name, rat (-1)]).power hc1 (k + 1)
  simp [productWithin, productStep, flattenFactors, collectBases, FactorGroups.insertBase, collectBase,
    neg_one_add_opposite, hpower, collectRebuilt, FactorGroups.insertFactor, multiplyOut, isProduct, assemble,
    sortFactors, ofFactors]

/-- The reciprocal of a term whose coefficient is not its base. -/
theorem productWithin_uncomputed (hr : r ≠ 1) (hcr : c ≠ r) (name : String)
    (hstands : ∀ j, powerWithin (j + 1) (rat c) (rat (-1)) = pow (rat c) (rat (-1))) (k : Nat) :
    ∃ fs, productWithin (k + 3) [pow (rat c) (rat (-1)), pow (rat r) (opposite name)] = mul fs ∧
      (fs = [pow (rat c) (rat (-1)), pow (rat r) (opposite name)] ∨
        fs = [pow (rat r) (opposite name), pow (rat c) (rat (-1))]) := by
  have hpair := List.perm_pair.1
    (List.mergeSort_perm [pow (rat c) (rat (-1)), pow (rat r) (opposite name)] fun a b =>
      (compareFactors a b).isLE)
  have hpower := (symbolicExponent_opposite name).power hr (k + 1)
  refine ⟨sortFactors [pow (rat c) (rat (-1)), pow (rat r) (opposite name)], ?_, hpair⟩
  obtain ⟨a, b, hab⟩ : ∃ a b, sortFactors [pow (rat c) (rat (-1)), pow (rat r) (opposite name)] = [a, b] := by
    rcases hpair with h | h <;> exact ⟨_, _, h⟩
  simp [productWithin, productStep, flattenFactors, collectBases, FactorGroups.insertBase, collectBase, hcr,
    hstands (k + 1), hpower, collectRebuilt, FactorGroups.insertFactor, multiplyOut, isProduct, assemble, hab,
    ofFactors]

/-- The quotient of neighbouring terms: the coefficient cancels, or it stands beside its unevaluated reciprocal. -/
theorem geometric_quotient (hc : c ≠ 0) (hr0 : r ≠ 0) (hr : r ≠ 1) (name : String) :
    times c [pow (rat r) (add [var name, rat 1])] / times c [pow (rat r) (var name)] = rat r ∨
      times c [pow (rat r) (add [var name, rat 1])] / times c [pow (rat r) (var name)] =
        times (c * r) [pow (rat c) (rat (-1))] := by
  rw [← nextIndex]
  obtain ⟨k, hk⟩ := roundsFor_eq ((times c [pow (rat r) (var name)]).size + (rat (-1)).size)
  have hquotient : times c [pow (rat r) (nextIndex name)] / times c [pow (rat r) (var name)] =
      product [times c [pow (rat r) (nextIndex name)],
        powerWithin (k + 4) (times c [pow (rat r) (var name)]) (rat (-1))] := by
    rw [← hk]
    rfl
  rw [hquotient]
  by_cases hc1 : c = 1
  · subst hc1
    rw [times_one_singleton, times_one_singleton, powerWithin_exponential_inverse hr name (k + 1)]
    exact .inl (product_powers hr0 name)
  · rw [powerWithin_scaled_inverse hc1 hr, times_of_ne_one hc1 (by simp)]
    rcases powerWithin_inverse_rat hc hc1 (k + 2) with hcomputed | hstands
    · have hinv1 : c⁻¹ ≠ 1 := by simpa using hc1
      rw [hcomputed, productWithin_exponential (inv_ne_zero hc) hr (symbolicExponent_opposite name),
        times_of_ne_one hinv1 (by simp)]
      exact .inl (product_computed hc hr0 name)
    · rw [hstands]
      by_cases hcr : c = r
      · subst hcr
        rw [productWithin_sameBase hc1]
        exact .inl (product_sameBase hc name)
      · obtain ⟨fs, hfs, hpair⟩ := productWithin_uncomputed hr hcr name hstands k
        rw [hfs]
        exact .inr (product_uncomputed hc hr0 hcr name hstands hpair)

/-! ## The ratio of a geometric sequence -/

mutual

/-- What has a value does not contain an infinity. -/
theorem isFinite_of_definedAt {ρ : String → Rat} : ∀ x : Expr, DefinedAt ρ x → x.isFinite = true
  | rat _, _ | var _, _ => by simp [isFinite, exist]
  | add ts, h => by
    have hts := existAny_of_definedAt ts ((defined_add ts).1 h)
    simp [isFinite, exist, hts]
  | mul fs, h => by
    have hfs := existAny_of_definedAt fs ((defined_mul fs).1 h)
    simp [isFinite, exist, hfs]
  | pow b x, h => by
    obtain ⟨n, rfl⟩ := h.exponent
    have hb := isFinite_of_definedAt b ((defined_pow b n).1 h).1
    rw [isFinite, Bool.not_eq_true'] at hb
    simp [isFinite, exist, hb]
  | fn f x, h => by simp [Defined, Reading.ofVars] at h
  | pi, h | e, h | i, h | infinity, h | undefined, h => h.elim

theorem existAny_of_definedAt {ρ : String → Rat} : ∀ xs : List Expr, (∀ x ∈ xs, DefinedAt ρ x) →
    existAny (fun y => y = infinity || y = undefined) xs = false
  | [], _ => rfl
  | x :: xs, h => by
    obtain ⟨hx, hxs⟩ := List.forall_mem_cons.1 h
    have hfinite := isFinite_of_definedAt x hx
    rw [isFinite, Bool.not_eq_true'] at hfinite
    rw [existAny, hfinite, existAny_of_definedAt xs hxs, Bool.or_false]

end

/-- The ratio of a geometric sequence is found, and has its value. -/
theorem geometric_ratio? (hc : c ≠ 0) (hr0 : r ≠ 0) (hr : r ≠ 1) (name : String) :
    ∃ q, ratio? (times c [pow (rat r) (var name)]) name = some q ∧
      ∀ ρ, DefinedAt ρ q ∧ valueAt ρ q = r := by
  set quotient := times c [pow (rat r) (add [var name, rat 1])] / times c [pow (rat r) (var name)] with hquotient
  have hvalue (ρ : String → Rat) : DefinedAt ρ quotient ∧ valueAt ρ quotient = r := by
    rcases geometric_quotient hc hr0 hr name with h | h
    · rw [hquotient, h]
      exact ⟨trivial, rfl⟩
    · have hcancel : c * r * c⁻¹ = r := by field_simp
      rw [hquotient, h]
      by_cases hone : c * r = 1
      · rw [hone, times_one_singleton]
        exact ⟨by simp [hc], by simpa [hone] using hcancel⟩
      · rw [times_of_ne_one hone (by simp)]
        exact ⟨by simp [hc], by simpa using hcancel⟩
  have hplain : Plain (fun _ => False) quotient := by
    rcases geometric_quotient hc hr0 hr name with h | h
    · rw [hquotient, h]
      trivial
    · rw [hquotient, h, times]
      split <;> simp [ofFactors]
  have hsimple (ρ : String → Rat) : DefinedAt ρ quotient.simplify ∧ valueAt ρ quotient.simplify = r := by
    obtain ⟨hd, hv⟩ := hplain.simplify_keepsValue ρ (hvalue ρ).1
    exact ⟨hd, hv.trans (hvalue ρ).2⟩
  have hvar : quotient.simplify.hasVar name = false :=
    (varsIn_ne_iff name _).1 (hplain.simplify.mono fun _ h => h.elim).varsIn
  have hone : quotient.simplify.isOne = false := by
    refine Bool.eq_false_of_not_eq_true fun h => hr ?_
    obtain ⟨hd, hv⟩ := hsimple fun _ => 0
    rw [← hv]
    cases hs : quotient.simplify <;> simp_all [isOne]
  have hfinite := isFinite_of_definedAt _ (hsimple fun _ => 0).1
  refine ⟨quotient.simplify, ?_, hsimple⟩
  have hratio : (times c [pow (rat r) (var name)]).subst name (var name + one) / times c [pow (rat r) (var name)] =
      quotient := by rw [geometric_subst hc hr]
  rw [ratio?, hratio]
  simp [hvar, hone, hfinite]

/-- A geometric term is no polynomial in the index. -/
theorem geometric_coefficients? (hc : c ≠ 0) (hr : r ≠ 1) (name : String) :
    (times c [pow (rat r) (var name)]).coefficients? name = none := by
  have hpower := power_symbolic hr (symbolicExponent_var name)
  have hpow : (pow (rat r) (var name)).expand = pow (rat r) (var name) := by
    have hexpand : (pow (rat r) (var name)).expand = expandPower (rat r) (var name) := by simp [expand]
    rw [hexpand, expandPower_of_notSum rfl, hpower]
  have hexpand : (times c [pow (rat r) (var name)]).expand = times c [pow (rat r) (var name)] := by
    by_cases hc1 : c = 1
    · rw [hc1, times_one_singleton, hpow]
    · have hprod : product [rat c, pow (rat r) (var name)] = times c [pow (rat r) (var name)] := by
        have h := product_exponential hc hr (symbolicExponent_var name)
        rwa [hpower] at h
      rw [expand_times_singleton hc hc1 rfl hpow, hprod, times_of_ne_one hc1 (by simp)]
      simp [sum, flattenTerms, TermGroups.insert, TermGroups.empty, ofTerms, infinitySign?, splitCoeff, collectTerm,
        withCoeff, isOne, ofFactors, hc, hc1]
  have hmonomial : monomial? name (times c [pow (rat r) (var name)]) = none := by
    rw [times]
    split <;> simp [ofFactors, monomial?, hasVar, exist, existAny, varDegree?, varDegreeAll?]
  have hterms : (times c [pow (rat r) (var name)]).terms = [times c [pow (rat r) (var name)]] := by
    rw [times]
    split <;> rfl
  rw [coefficients?_eq, hexpand, hterms, List.mapM_cons, hmonomial]
  rfl

end SymbolicSolver.Expr
