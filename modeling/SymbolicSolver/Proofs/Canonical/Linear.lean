import Mathlib.Data.List.Nodup
import Mathlib.Data.List.Perm.Basic
import SymbolicSolver.Proofs.Canonical.FormProduct

/-!
# Linear forms

A linear form is a canonical sum of rational multiples of different variables and of a rational. Sums of linear forms
and rational multiples of them are linear forms, and a linear form is determined by its values: its terms can be read
off at the origin and at the unit points, and their order is that of the variables.
-/

namespace SymbolicSolver.Expr

/-! ## The form -/

/-- A rational, or a multiple of a variable. -/
inductive LinearTerm : Expr → Prop
  | constant (q : Rat) : LinearTerm (rat q)
  | multiple {c : Rat} (hc : c ≠ 0) (s : String) : LinearTerm (times c [var s])

/-- The terms of a linear form, in order. -/
structure LinearRow (ts : List Expr) : Prop extends TermRow ts where
  linear : ∀ t ∈ ts, LinearTerm t

/-- Linear forms with rational coefficients. -/
def Linear (x : Expr) : Prop := ∃ ts, LinearRow ts ∧ x = ofTerms ts

theorem monomial_var (s : String) : Monomial [var s] :=
  ⟨by simpa using .var s, ⟨by simp [rat?], by simp [isProduct], by simp, List.pairwise_singleton _ _⟩,
    by simp⟩

theorem splitCoeff_multiple (c : Rat) (s : String) : (times c [var s]).splitCoeff = (c, var s) := by
  rw [(monomial_var s).splitCoeff_times, times_one_singleton]

namespace LinearTerm

variable {t u : Expr}

theorem canonical (h : LinearTerm t) : Canonical t := by
  cases h with
  | constant q => exact .rat q
  | multiple hc s => exact (monomial_var s).canonical_times hc

theorem notSum (h : LinearTerm t) : t.isSum = false := by
  cases h with
  | constant q => rfl
  | multiple hc s => exact times_notSum (monomial_var s) _

/-- A constant has the rest one, a multiple its variable. -/
theorem rest (h : LinearTerm t) :
    (t = rat t.splitCoeff.1 ∧ t.splitCoeff.2 = one) ∨
      ∃ s, t = times t.splitCoeff.1 [var s] ∧ t.splitCoeff.2 = var s := by
  cases h with
  | constant q => exact .inl ⟨rfl, rfl⟩
  | multiple hc s => exact .inr ⟨s, by rw [splitCoeff_multiple], by rw [splitCoeff_multiple]⟩

/-- Coefficient and rest determine a term. -/
theorem ext (ht : LinearTerm t) (hu : LinearTerm u) (h : t.splitCoeff = u.splitCoeff) : t = u := by
  rcases ht.rest with ⟨htc, htr⟩ | ⟨s, htc, htr⟩ <;> rcases hu.rest with ⟨huc, hur⟩ | ⟨s', huc, hur⟩
  · rw [htc, huc, h]
  · rw [h, hur] at htr
    cases htr
  · rw [h, hur] at htr
    cases htr
  · rw [h, hur] at htr
    obtain rfl := var.inj htr
    rw [htc, huc, h]

theorem defined (h : LinearTerm t) (r : Reading) : Defined r t := by
  cases h with
  | constant q => trivial
  | @multiple c hc s => by_cases hc1 : c = 1 <;> simp [times, ofFactors, hc1]

theorem eval_eq (h : LinearTerm t) (r : Reading) :
    eval r t = t.splitCoeff.1 * eval r t.splitCoeff.2 := by
  cases h with
  | constant q => simp [splitCoeff, one]
  | @multiple c hc s =>
    rw [splitCoeff_multiple]
    simp only [times, ofFactors]
    by_cases hc1 : c = 1
    · simp [hc1]
    · simp [hc1]

end LinearTerm

theorem isZero_multiple {c : Rat} (s : String) : (times c [var s]).isZero = false := by
  by_cases hc1 : c = 1 <;> simp [times, ofFactors, hc1, isZero]

/-! ## Rows -/

theorem sortTerms_perm (ts : List Expr) : (sortTerms ts).Perm ts := List.mergeSort_perm ts _

/-- Terms with different rests are a row once sorted. -/
theorem linearRow_sortTerms {ts : List Expr} (hlinear : ∀ t ∈ ts, LinearTerm t)
    (hzero : ∀ t ∈ ts, t.isZero = false) (hrests : (ts.map fun t => t.splitCoeff.2).Nodup) :
    LinearRow (sortTerms ts) := by
  have hmem : ∀ t, t ∈ sortTerms ts ↔ t ∈ ts := fun t => (sortTerms_perm ts).mem_iff
  refine ⟨⟨fun t ht => ?_, fun t ht => ?_, ?_, sortTerms_sorted ts⟩, fun t ht => ?_⟩
  · exact (hlinear t ((hmem t).1 ht)).notSum
  · exact hzero t ((hmem t).1 ht)
  · exact ((sortTerms_perm ts).map _).nodup_iff.2 hrests
  · exact hlinear t ((hmem t).1 ht)

theorem ofTerms_sortTerms (ts : List Expr) : ofTerms (sortTerms ts) = ofTerms ts := by
  match ts with
  | [] => rw [sortTerms_of_sorted .nil]
  | [t] => rw [sortTerms_of_sorted (List.pairwise_singleton _ _)]
  | t :: u :: ts =>
    have hlen : 2 ≤ (sortTerms (t :: u :: ts)).length := by
      rw [(sortTerms_perm _).length_eq]
      exact Nat.le_add_left 2 _
    rw [ofTerms_of_length hlen, sortTerms_of_sorted (sortTerms_sorted _)]
    rfl

theorem linear_ofTerms {ts : List Expr} (hlinear : ∀ t ∈ ts, LinearTerm t)
    (hzero : ∀ t ∈ ts, t.isZero = false) (hrests : (ts.map fun t => t.splitCoeff.2).Nodup) :
    Linear (ofTerms ts) :=
  ⟨sortTerms ts, linearRow_sortTerms hlinear hzero hrests, (ofTerms_sortTerms ts).symm⟩

theorem linear_rat (q : Rat) : Linear (rat q) := by
  by_cases hq : q = 0
  · have hempty : Linear (ofTerms []) := linear_ofTerms (by simp) (by simp) (by simp)
    exact hq ▸ hempty
  · have hone : Linear (ofTerms [rat q]) :=
      linear_ofTerms (by simpa using .constant q) (by simpa [isZero] using hq) (by simp)
    exact hone

theorem linear_multiple (c : Rat) (s : String) (hc : c ≠ 0) : Linear (times c [var s]) := by
  have hone : Linear (ofTerms [times c [var s]]) :=
    linear_ofTerms (by simpa using .multiple hc s) (by simpa using isZero_multiple s) (by simp)
  exact hone

theorem linear_var (s : String) : Linear (var s) := by
  have h := linear_multiple 1 s one_ne_zero
  rwa [times_one_singleton] at h

namespace Linear

variable {x : Expr}

/-- A linear form is a single term, or a sum of at least two. -/
theorem cases_row (h : Linear x) :
    LinearTerm x ∨ ∃ ts, LinearRow ts ∧ 2 ≤ ts.length ∧ x = add ts := by
  obtain ⟨ts, hts, rfl⟩ := h
  match ts with
  | [] => exact .inl (.constant 0)
  | [t] => exact .inl (hts.linear t (by simp))
  | t :: u :: ts =>
    have hlen : 2 ≤ (t :: u :: ts).length := Nat.le_add_left 2 _
    exact .inr ⟨_, hts, hlen, by rw [ofTerms_of_length hlen, sortTerms_of_sorted hts.sorted]⟩

theorem canonical (h : Linear x) : Canonical x := by
  rcases h.cases_row with ht | ⟨ts, hts, hlen, rfl⟩
  · exact ht.canonical
  · exact .sum (fun t ht => (hts.linear t ht).canonical) hts.toTermRow hlen

theorem terms (h : Linear x) : ∀ t ∈ x.terms, LinearTerm t := by
  rcases h.cases_row with ht | ⟨ts, hts, -, rfl⟩
  · have hterms : x.terms = [x] := by
      have := ht.notSum
      cases x <;> first | rfl | simp [isSum] at this
    simpa [hterms] using ht
  · exact hts.linear

theorem defined (h : Linear x) (r : Reading) : Defined r x := by
  obtain ⟨ts, hts, rfl⟩ := h
  exact (defined_ofTerms ts).2 fun t ht => (hts.linear t ht).defined r

end Linear

/-! ## Sums -/

theorem mem_terms_flattenTerms {xs : List Expr} (h : ∀ x ∈ xs, Linear x) :
    ∀ t ∈ flattenTerms xs, LinearTerm t := by
  have hself {y : Expr} (hy : LinearTerm y) : ∀ t ∈ y.terms, LinearTerm t := by
    rw [terms_of_notSum hy.notSum]
    simpa using hy
  intro t ht
  obtain ⟨hterm, hs⟩ := flattenTerms_all (Q := fun x => ∀ t ∈ x.terms, LinearTerm t) (fun hys y hmem => hself (hys y hmem))
    (fun x hx => (h x hx).terms) t ht
  exact hterm t (terms_of_notSum hs ▸ List.mem_singleton_self t)

/-- What stands beside the coefficient of a term that is no rational is a variable. -/
theorem LinearTerm.rest_var {t : Expr} (ht : LinearTerm t) (hr : t.rat? = none) : ∃ s, t.splitCoeff.2 = var s := by
  rcases ht.rest with ⟨hc, -⟩ | ⟨s, -, hs⟩
  · rw [hc] at hr
    cases hr
  · exact ⟨s, hs⟩

/-- The sum of linear forms is a linear form. -/
theorem sum_linear {xs : List Expr} (h : ∀ x ∈ xs, Linear x) : Linear (sum xs) := by
  have hcanon : ∀ x ∈ xs, Canonical x := fun x hx => (h x hx).canonical
  have hg := TermGroups.distinct_empty.foldl (flattenTerms_canonical hcanon)
  have hvars := TermGroups.rests_insertAll (Q := fun x => ∃ s, x = var s)
    (fun t ht hr _ => (mem_terms_flattenTerms h t ht).rest_var hr) (g := .empty) (by simp [TermGroups.empty])
  rw [sum_of_canonical hcanon]
  generalize (flattenTerms xs).foldl TermGroups.insert TermGroups.empty = parts at hg hvars
  obtain ⟨hterms, hnodup⟩ := hg.allTerms
  refine linear_ofTerms (fun t ht => ?_) (fun t ht => (hterms t ht).2.2) hnodup
  rcases List.mem_append.1 ht with ht | ht
  · simp only [keptTerms, List.mem_map, List.mem_filter] at ht
    obtain ⟨q, ⟨hq, hc⟩, rfl⟩ := ht
    obtain ⟨s, hs⟩ := hvars q hq
    rw [hs, ← times_one_singleton (var s), (monomial_var s).withCoeff_times]
    exact .multiple (by simpa using hc) s
  · split at ht
    · exact List.mem_singleton.1 ht ▸ .constant _
    · simp at ht

/-! ## Rational multiples -/

/-- A coefficient before a term of a linear form. -/
theorem productWithin_term (k : Nat) (c : Rat) {t : Expr} (ht : LinearTerm t) :
    Linear (productWithin (k + 2) [rat c, t]) := by
  cases ht with
  | constant q =>
    rw [productWithin_rat_rat]
    exact linear_rat _
  | @multiple d hd s =>
    have hvar := monomial_var s
    obtain ⟨cs, hflat, hprod⟩ := flattenFactors_times c d hvar
    by_cases hc : cs.prod = 0
    · rw [productWithin_row_zero k hflat hvar.canonical hvar.row hc]
      exact linear_rat 0
    · rw [productWithin_row k hflat hvar.canonical hvar.row hc (.inr hvar.notLone)]
      exact linear_multiple _ s hc

/-- The row of a single sum. -/
theorem factorRow_sum (ts : List Expr) : FactorRow [add ts] :=
  ⟨by simp [rat?], by simp [isProduct], by simp, List.pairwise_singleton _ _⟩

/-- A rational multiple of a linear form is a linear form. -/
theorem product_rat_linear (c : Rat) {x : Expr} (hx : Linear x) : Linear (product [rat c, x]) := by
  obtain ⟨k, hk⟩ := roundsFor_eq (sizeAll [rat c, x])
  rw [product, hk]
  rcases hx.cases_row with ht | ⟨ts, hts, hlen, rfl⟩
  · exact productWithin_term (k + 2) c ht
  · have hflat : flattenFactors [rat c, add ts] = [c].map rat ++ [add ts] := by simp [flattenFactors]
    have hcanon : ∀ f ∈ [add ts], Canonical f := by simpa using hx.canonical
    rw [productWithin_collected _ hflat hcanon (factorRow_sum ts), List.prod_singleton, multiplyOut]
    split
    · exact linear_rat 0
    · rw [any_isProduct_eq_false (factorRow_sum ts).notProduct, if_neg Bool.false_ne_true,
        if_neg Bool.false_ne_true]
      dsimp only
      split
      · exact hx
      · -- the coefficient spreads over the terms
        refine sum_linear fun y hy => ?_
        obtain ⟨t, ht, rfl⟩ := List.mem_map.1 hy
        exact productWithin_term (k + 1) c (hts.linear t ht)

/-! ### A rational behind -/

theorem foldl_insertBase_coeff (c : Rat) (fs : List Expr) (g : FactorGroups (Expr × Expr)) :
    fs.foldl FactorGroups.insertBase { g with coeff := g.coeff * c } =
      { fs.foldl FactorGroups.insertBase g with
        coeff := (fs.foldl FactorGroups.insertBase g).coeff * c } := by
  induction fs generalizing g with
  | nil => rfl
  | cons f fs ih =>
    have hstep : FactorGroups.insertBase { g with coeff := g.coeff * c } f =
        { g.insertBase f with coeff := (g.insertBase f).coeff * c } := by
      cases f with
      | rat q => simp [FactorGroups.insertBase, mul_right_comm]
      | _ => rfl
    rw [List.foldl_cons, hstep, ih]
    rfl

/-- A rational may stand first or last. -/
theorem product_rat_comm (x : Expr) (c : Rat) : product [x, rat c] = product [rat c, x] := by
  have hsize : sizeAll [x, rat c] = sizeAll [rat c, x] := by
    simp only [sizeAll, size]
    omega
  obtain ⟨k, hk⟩ := roundsFor_eq (sizeAll [rat c, x])
  have hflat : flattenFactors [x, rat c] = flattenFactors [x] ++ [rat c] := by
    cases x <;> simp [flattenFactors]
  have hflat' : flattenFactors [rat c, x] = rat c :: flattenFactors [x] := by
    cases x <;> simp [flattenFactors]
  have hany : (flattenFactors [x] ++ [rat c]).any (· = undefined) =
      (rat c :: flattenFactors [x]).any (· = undefined) := by
    simp [Bool.or_comm]
  have hbases : collectBases (flattenFactors [x] ++ [rat c]) =
      collectBases (rat c :: flattenFactors [x]) := by
    have hfirst := foldl_insertBase_coeff c (flattenFactors [x]) ⟨1, false, []⟩
    rw [collectBases, List.foldl_append]
    exact hfirst.symm
  rw [product, product, hsize, hk, productWithin, productWithin, productStep, productStep, hflat, hflat',
    hany, hbases]

theorem product_linear_rat {x : Expr} (hx : Linear x) (c : Rat) : Linear (product [x, rat c]) := by
  rw [product_rat_comm]
  exact product_rat_linear c hx

theorem neg_linear {x : Expr} (hx : Linear x) : Linear (-x) := product_rat_linear (-1) hx

theorem add_linear {x y : Expr} (hx : Linear x) (hy : Linear y) : Linear (x + y) :=
  sum_linear (by simpa using ⟨hx, hy⟩)

/-- A whole power of a rational is computed if it is not too large. -/
theorem power_rat_int {q : Rat} {n : Int} (h : q ≠ 0 ∨ 0 ≤ n) (hfits : powerFits q n = true) :
    power (rat q) (rat n) = rat (q ^ n) := by
  obtain ⟨k, hk⟩ := roundsFor_eq ((rat q).size + (rat (n : Rat)).size)
  rw [power, hk, powerWithin]
  by_cases h0 : n = 0
  · rw [h0, Int.cast_zero, zpow_zero]
    exact powerStep_zero _ _ (.rat q)
  by_cases h1 : n = 1
  · rw [h1, Int.cast_one, zpow_one]
    exact powerStep_one _ _ (.rat q)
  by_cases hq1 : q = 1
  · unfold powerStep
    rw [if_neg (by simp), if_neg (by simpa [isZero] using h0), if_neg (by simpa [isOne] using h1),
      if_pos (by simp [isOne, hq1]), if_pos (by simp [isFinite, exist]), hq1, one_zpow]
    rfl
  · rw [powerStep_rat _ _ hq1 h0 h1, rationalPower]
    by_cases hq : q = 0
    · have hpos : (0 : Rat) < n := by
        have := h.resolve_left (not_not.2 hq)
        exact_mod_cast (by omega : 0 < n)
      rw [if_pos hq, if_pos hpos, hq, zero_zpow n h0]
      rfl
    · rw [if_neg hq, if_pos (Rat.den_intCast _), Rat.num_intCast, if_pos hfits, Rational.power_eq_zpow]

/-- The reciprocal of a rational is computed if it is not too large. -/
theorem inverse_rat {q : Rat} (hq : q ≠ 0) (hfits : powerFits q (-1) = true) :
    inverse (rat q) = rat q⁻¹ := by
  have hcast : inverse (rat q) = power (rat q) (rat ((-1 : Int) : Rat)) := by
    rw [Int.cast_neg, Int.cast_one]
    rfl
  rw [hcast, power_rat_int (.inl hq) hfits, zpow_neg_one]

theorem div_linear {x : Expr} (hx : Linear x) {q : Rat} (hq : q ≠ 0)
    (hfits : powerFits q (-1) = true) : Linear (x / rat q) := by
  have hdiv : x / rat q = product [x, rat q⁻¹] := by
    rw [← inverse_rat hq hfits]
    rfl
  rw [hdiv]
  exact product_linear_rat hx q⁻¹

/-! ## Values -/

/-- The coefficient of a rest in a list of terms. -/
def coeffOf (rest : Expr) (ts : List Expr) : Rat :=
  (ts.map fun t => if t.splitCoeff.2 = rest then t.splitCoeff.1 else 0).sum

theorem coeffOf_cons (rest t : Expr) (ts : List Expr) :
    coeffOf rest (t :: ts) = (if t.splitCoeff.2 = rest then t.splitCoeff.1 else 0) + coeffOf rest ts := by
  simp [coeffOf]

theorem coeffOf_of_notMem {rest : Expr} {ts : List Expr}
    (h : rest ∉ ts.map fun t => t.splitCoeff.2) : coeffOf rest ts = 0 := by
  induction ts with
  | nil => rfl
  | cons t ts ih =>
    simp only [List.map_cons, List.mem_cons, not_or] at h
    rw [coeffOf_cons, if_neg (Ne.symm h.1), ih h.2, add_zero]

theorem coeffOf_of_mem {t : Expr} {ts : List Expr} (hnodup : (ts.map fun t => t.splitCoeff.2).Nodup)
    (h : t ∈ ts) : coeffOf t.splitCoeff.2 ts = t.splitCoeff.1 := by
  induction ts with
  | nil => simp at h
  | cons u ts ih =>
    rw [List.map_cons, List.nodup_cons] at hnodup
    rw [coeffOf_cons]
    rcases List.mem_cons.1 h with rfl | h
    · rw [if_pos rfl, coeffOf_of_notMem hnodup.1, add_zero]
    · have hne : u.splitCoeff.2 ≠ t.splitCoeff.2 := fun heq =>
        hnodup.1 (heq ▸ List.mem_map_of_mem h)
      rw [if_neg hne, zero_add, ih hnodup.2 h]

/-- The rest of a linear term with a coefficient other than zero. -/
theorem LinearRow.mem_iff {ts : List Expr} (hts : LinearRow ts) {t : Expr} (ht : LinearTerm t)
    (hzero : t.isZero = false) : t ∈ ts ↔ coeffOf t.splitCoeff.2 ts = t.splitCoeff.1 := by
  constructor
  · exact coeffOf_of_mem hts.rests
  · intro h
    have hc : t.splitCoeff.1 ≠ 0 := by
      cases ht with
      | constant q => simpa [isZero, splitCoeff] using hzero
      | multiple hc s => rwa [splitCoeff_multiple]
    have hmem : t.splitCoeff.2 ∈ ts.map fun t => t.splitCoeff.2 := by
      by_contra hnot
      exact hc (by rw [← h, coeffOf_of_notMem hnot])
    obtain ⟨u, hu, hrest⟩ := List.mem_map.1 hmem
    have hcoeff : u.splitCoeff.1 = t.splitCoeff.1 := by
      rw [← h, ← hrest, coeffOf_of_mem hts.rests hu]
    exact (hts.linear u hu).ext ht (Prod.ext hcoeff hrest) ▸ hu

/-- The value of a variable at a unit point. -/
def unitPoint (s : String) : String → Rat := fun v => if v = s then 1 else 0

/-- The value at the origin, the constant term of a linear form. -/
def offset (x : Expr) : Rat := valueAt (fun _ => 0) x

/-- The change from the origin to a unit point, the coefficient of a variable in a linear form. -/
def slopeAlong (x : Expr) (s : String) : Rat := valueAt (unitPoint s) x - offset x

theorem LinearTerm.offset_eq {t : Expr} (h : LinearTerm t) :
    offset t = if t.splitCoeff.2 = one then t.splitCoeff.1 else 0 := by
  rw [offset, valueAt, h.eval_eq]
  rcases h.rest with ⟨-, hr⟩ | ⟨s, -, hr⟩ <;> rw [hr]
  · simp [one]
  · simp [one, Reading.ofVars]

theorem LinearTerm.slope_eq {t : Expr} (h : LinearTerm t) (s : String) :
    slopeAlong t s = if t.splitCoeff.2 = var s then t.splitCoeff.1 else 0 := by
  rw [slopeAlong, offset, valueAt, valueAt, h.eval_eq, h.eval_eq]
  rcases h.rest with ⟨-, hr⟩ | ⟨v, -, hr⟩ <;> rw [hr]
  · simp [one]
  · by_cases hv : v = s <;> simp [Reading.ofVars, unitPoint, hv]

theorem offset_ofTerms (ts : List Expr) : offset (ofTerms ts) = (ts.map offset).sum := eval_ofTerms ts

theorem slope_ofTerms (ts : List Expr) (s : String) :
    slopeAlong (ofTerms ts) s = (ts.map fun t => slopeAlong t s).sum := by
  have hvalue : valueAt (unitPoint s) (ofTerms ts) = (ts.map (valueAt (unitPoint s))).sum := eval_ofTerms ts
  rw [slopeAlong, hvalue, offset_ofTerms]
  induction ts with
  | nil => simp
  | cons t ts ih =>
    simp only [List.map_cons, List.sum_cons]
    rw [← ih (eval_ofTerms ts), slopeAlong]
    ring

theorem LinearRow.offset_eq {ts : List Expr} (h : LinearRow ts) : offset (ofTerms ts) = coeffOf one ts := by
  rw [offset_ofTerms, coeffOf]
  exact congrArg List.sum (List.map_congr_left fun t ht => (h.linear t ht).offset_eq)

theorem LinearRow.slope_eq {ts : List Expr} (h : LinearRow ts) (s : String) :
    slopeAlong (ofTerms ts) s = coeffOf (var s) ts := by
  rw [slope_ofTerms, coeffOf]
  exact congrArg List.sum (List.map_congr_left fun t ht => (h.linear t ht).slope_eq s)

theorem LinearRow.terms {ts : List Expr} (h : LinearRow ts) (hne : ts ≠ []) : (ofTerms ts).terms = ts := by
  match ts with
  | [] => exact absurd rfl hne
  | [t] =>
    have hsum := (h.linear t (by simp)).notSum
    cases t <;> first | rfl | simp [isSum] at hsum
  | t :: u :: ts =>
    rw [ofTerms_of_length (Nat.le_add_left 2 _), sortTerms_of_sorted h.sorted]
    rfl

/-- The coefficients of the terms are the values at the origin and the changes to the unit points. -/
theorem Linear.coeff_eq {x t : Expr} (h : Linear x) (ht : t ∈ x.terms) :
    t.splitCoeff.1 = offset x ∨ ∃ s, t.splitCoeff.2 = var s ∧ t.splitCoeff.1 = slopeAlong x s := by
  obtain ⟨ts, hts, rfl⟩ := h
  by_cases hne : ts = []
  · subst hne
    obtain rfl : t = rat 0 := List.mem_singleton.1 ht
    exact .inl rfl
  · rw [hts.terms hne] at ht
    have hcoeff := coeffOf_of_mem hts.rests ht
    rcases (hts.linear t ht).rest with ⟨-, hr⟩ | ⟨s, -, hr⟩
    · exact .inl (by rw [hts.offset_eq, ← hcoeff, hr])
    · exact .inr ⟨s, hr, by rw [hts.slope_eq, ← hcoeff, hr]⟩

theorem coeffOf_cases {rest : Expr} {ts : List Expr} (h : LinearRow ts) :
    coeffOf rest ts = 0 ∨ ∃ t ∈ (ofTerms ts).terms, t.splitCoeff.1 = coeffOf rest ts := by
  by_cases hmem : rest ∈ ts.map fun t => t.splitCoeff.2
  · obtain ⟨t, ht, rfl⟩ := List.mem_map.1 hmem
    refine .inr ⟨t, ?_, (coeffOf_of_mem h.rests ht).symm⟩
    rwa [h.terms (List.ne_nil_of_mem ht)]
  · exact .inl (coeffOf_of_notMem hmem)

theorem Linear.offset_cases {x : Expr} (h : Linear x) :
    offset x = 0 ∨ ∃ t ∈ x.terms, t.splitCoeff.1 = offset x := by
  obtain ⟨ts, hts, rfl⟩ := h
  rw [hts.offset_eq]
  exact coeffOf_cases hts

theorem Linear.slope_cases {x : Expr} (h : Linear x) (s : String) :
    slopeAlong x s = 0 ∨ ∃ t ∈ x.terms, t.splitCoeff.1 = slopeAlong x s := by
  obtain ⟨ts, hts, rfl⟩ := h
  rw [hts.slope_eq]
  exact coeffOf_cases hts

/-! ## Uniqueness -/

theorem var_key_inj {s v : String} (h : "VAR(" ++ s ++ ")" = "VAR(" ++ v ++ ")") : s = v := by
  have hlist := congrArg String.toList h
  simp only [String.toList_append, List.append_cancel_left_eq, List.append_cancel_right_eq] at hlist
  exact String.toList_injective hlist

/-- Terms that compare equal have the same rest. -/
theorem LinearTerm.rest_eq {t u : Expr} (ht : LinearTerm t) (hu : LinearTerm u)
    (h : compareTerms t u = .eq) : t.splitCoeff.2 = u.splitCoeff.2 := by
  simp only [compareTerms, Ordering.then_eq_eq] at h
  obtain ⟨-, -, hrest, -⟩ := h
  simp only [compareTree, Ordering.then_eq_eq] at hrest
  have hrank := Nat.compare_eq_eq.1 hrest.1
  have hkey := Std.LawfulEqCmp.eq_of_compare hrest.2
  rcases ht.rest with ⟨-, htr⟩ | ⟨s, -, htr⟩ <;> rcases hu.rest with ⟨-, hur⟩ | ⟨v, -, hur⟩
  · rw [htr, hur]
  · rw [htr, hur] at hrank
    cases hrank
  · rw [htr, hur] at hrank
    cases hrank
  · rw [htr, hur] at hkey ⊢
    rw [var_key_inj hkey]

/-- Linear forms with the same values are the same. -/
theorem linear_ext {x y : Expr} (hx : Linear x) (hy : Linear y)
    (h : ∀ ρ, valueAt ρ x = valueAt ρ y) : x = y := by
  obtain ⟨ts, hts, rfl⟩ := hx
  obtain ⟨us, hus, rfl⟩ := hy
  have hcoeff : ∀ t, LinearTerm t → coeffOf t.splitCoeff.2 ts = coeffOf t.splitCoeff.2 us := by
    intro t ht
    rcases ht.rest with ⟨-, hr⟩ | ⟨s, -, hr⟩ <;> rw [hr]
    · rw [← hts.offset_eq, ← hus.offset_eq, offset, h, offset]
    · rw [← hts.slope_eq, ← hus.slope_eq, slopeAlong, slopeAlong, offset, h, h, offset]
  have hsub : ∀ {ts us : List Expr}, LinearRow ts → LinearRow us →
      (∀ t, LinearTerm t → coeffOf t.splitCoeff.2 ts = coeffOf t.splitCoeff.2 us) →
      ∀ t ∈ ts, t ∈ us := by
    intro ts us hts hus hcoeff t ht
    have hlinear := hts.linear t ht
    have hzero := hts.notZero t ht
    rw [hus.mem_iff hlinear hzero, ← hcoeff t hlinear]
    exact (hts.mem_iff hlinear hzero).1 ht
  have hperm : ts.Perm us := by
    refine (List.perm_ext_iff_of_nodup (List.Nodup.of_map _ hts.rests)
      (List.Nodup.of_map _ hus.rests)).2 fun t => ?_
    exact ⟨hsub hts hus hcoeff t, hsub hus hts (fun t ht => (hcoeff t ht).symm) t⟩
  have hsame : ts = us := by
    refine hperm.eq_of_pairwise (fun a b ha hb hab hba => ?_) hts.sorted hus.sorted
    have ha' := hts.linear a ha
    have hb' := hus.linear b hb
    have hrest := ha'.rest_eq hb' (Std.OrientedCmp.isLE_antisymm hab hba)
    refine ha'.ext hb' (Prod.ext ?_ hrest)
    rw [← coeffOf_of_mem hts.rests ha, ← coeffOf_of_mem hus.rests hb, hcoeff a ha', hrest]
  rw [hsame]

end SymbolicSolver.Expr
