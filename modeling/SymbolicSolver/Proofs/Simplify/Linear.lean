import SymbolicSolver.Proofs.Canonical.Linear
import SymbolicSolver.Proofs.Number.Bits
import SymbolicSolver.Proofs.Simplify.Plain

/-!
# Simplification of linear forms

Expansion and the trigonometric identities leave linear forms as they are. Their common denominator is a natural, and
as long as its reciprocal is computed, the reduced fraction is a linear form of the same values, which is the form
itself. So simplification changes no linear form whose denominators are not too large.
-/

namespace SymbolicSolver.Expr

/-! ## Values -/

theorem Linear.plain {p : String → Prop} {x : Expr} (hx : Linear x) (h : VarsIn p x) : Plain p x :=
  plain_of_definedAt x (hx.defined (.ofVars fun _ => 0)) h

/-- A linear form is the only one with its values on the circle. -/
theorem Linear.eq_of_keepsValue {x y : Expr} (hx : Linear x) (hy : Linear y)
    (h : ∀ p : CirclePoint, KeepsValue p.reading x y) : y = x := by
  refine linear_ext hy hx fun ρ => ?_
  have hkeeps := KeepsValue.ofVars (hx.plain (varsIn_true x)) (hy.plain (varsIn_true y)) (h (.ofVars ρ))
  exact (hkeeps (hx.defined _)).2

theorem product_rat_rat (a b : Rat) : product [rat a, rat b] = rat (a * b) := by
  obtain ⟨k, hk⟩ := roundsFor_eq (sizeAll [rat a, rat b])
  rw [product, hk, productWithin_rat_rat]

theorem product_rat (c : Rat) : product [rat c] = rat c := by
  obtain ⟨k, hk⟩ := roundsFor_eq (sizeAll [rat c])
  have hflat : flattenFactors [rat c] = [c].map rat ++ [] := by simp [flattenFactors]
  rw [product, hk]
  by_cases hc : c = 0
  · rw [productWithin_row_zero (k + 2) hflat (by simp) Monomial.nil.row (by simpa using hc), hc]
    rfl
  · rw [productWithin_row (k + 2) hflat (by simp) Monomial.nil.row (by simpa using hc) (.inr (by simp)),
      times_nil, List.prod_singleton]

/-- A linear term is a rational, a variable, or a variable behind a rational. -/
theorem LinearTerm.shape {t : Expr} (h : LinearTerm t) :
    (∃ c, t = rat c) ∨ (∃ s, t = var s) ∨ ∃ c s, c ≠ 1 ∧ t = mul [rat c, var s] := by
  cases h with
  | constant c => exact .inl ⟨c, rfl⟩
  | @multiple c hc s =>
    by_cases hc1 : c = 1
    · exact .inr (.inl ⟨s, by rw [hc1, times_one_singleton]⟩)
    · exact .inr (.inr ⟨c, s, hc1, times_of_ne_one hc1 (by simp)⟩)

/-! ## Identities and expansion -/

theorem Linear.trigPasses {x : Expr} (h : Linear x) (n : Nat) : trigPasses n x = x := by
  induction n with
  | zero => rfl
  | succ n ih =>
    have hpass : trigPass x = x := by
      rw [Plain.trigPass_eq x (h.plain (varsIn_true x)), h.canonical.rebuild]
    rw [Expr.trigPasses, hpass, if_neg (by simp)]

theorem Linear.trigIdentities {x : Expr} (h : Linear x) : x.trigIdentities = x := h.trigPasses 6

theorem LinearTerm.linear {t : Expr} (h : LinearTerm t) : Linear t := by
  cases h with
  | constant c => exact linear_rat c
  | multiple hc s => exact linear_multiple _ s hc

theorem distribute_rat_term (c : Rat) {t : Expr} (h : LinearTerm t) : Linear (distribute (rat c) t) := by
  rw [distribute, terms_of_notSum h.notSum, if_neg (by simp [terms, maxExpandedTerms])]
  refine sum_linear ?_
  simpa [terms] using product_rat_linear c h.linear

theorem LinearTerm.expand {t : Expr} (h : LinearTerm t) : Linear t.expand := by
  rcases h.shape with ⟨c, rfl⟩ | ⟨s, rfl⟩ | ⟨c, s, -, rfl⟩
  · exact linear_rat c
  · exact linear_var s
  · have hone : distribute one (rat c) = rat c := by
      refine (linear_rat c).eq_of_keepsValue (distribute_rat_term 1 (.constant c)) fun p _ => ?_
      have hone := distribute_restates (p := p) (a := one) (b := rat c) ⟨trivial, trivial⟩ ⟨trivial, trivial⟩
      exact ⟨hone.defined, hone.value.trans (by simp [one])⟩
    show Linear (distribute (distribute one (rat c)) (var s))
    rw [hone]
    exact distribute_rat_term c (linear_var s |>.terms (var s) (by simp [terms]))

/-- There is nothing to multiply out in a linear form. -/
theorem Linear.expand {x : Expr} (h : Linear x) : x.expand = x := by
  have hlinear : Linear x.expand := by
    rcases h.cases_row with ht | ⟨ts, hts, -, rfl⟩
    · exact ht.expand
    · rw [Expr.expand, expandAll_eq_map]
      refine sum_linear fun y hy => ?_
      obtain ⟨t, ht, rfl⟩ := List.mem_map.1 hy
      exact (hts.linear t ht).expand
  refine h.eq_of_keepsValue hlinear fun p hd => ?_
  have hexp := expand_restates x hd
  exact ⟨hexp.defined, hexp.value⟩

/-! ## Common denominators -/

/-- The numerator is a linear form and the denominator a natural that divides `n`. -/
structure Fraction.LinearOver (n : Nat) (f : Fraction) : Prop where
  num : Linear f.num
  den : ∃ d : Nat, d ≠ 0 ∧ d ∣ n ∧ f.den = rat d

theorem one_eq_rat : one = rat ((1 : Nat) : Rat) := by simp [one]

theorem Fraction.LinearOver.plus {m n : Nat} {a b : Fraction} (ha : a.LinearOver m) (hb : b.LinearOver n) :
    (a.plus b).LinearOver (m * n) := by
  obtain ⟨d, hd, hdm, hda⟩ := ha.den
  obtain ⟨e, he, hen, heb⟩ := hb.den
  have hprod : a.den * b.den = rat ((d * e : Nat) : Rat) := by
    rw [hda, heb, Nat.cast_mul]
    exact product_rat_rat _ _
  have hleft : Linear (a.num * b.den) := heb ▸ product_linear_rat ha.num _
  have hright : Linear (b.num * a.den) := hda ▸ product_linear_rat hb.num _
  unfold Fraction.plus
  split
  · exact ⟨add_linear ha.num hb.num, d, hd, hdm.mul_right n, hda⟩
  · split
    · exact ⟨add_linear ha.num hright, d, hd, hdm.mul_right n, hda⟩
    · split
      · exact ⟨add_linear hleft hb.num, e, he, hen.mul_left m, heb⟩
      · exact ⟨add_linear hleft hright, d * e, Nat.mul_ne_zero hd he, Nat.mul_dvd_mul hdm hen, hprod⟩

theorem LinearTerm.toFraction {t : Expr} (h : LinearTerm t) :
    t.toFraction.LinearOver t.splitCoeff.1.den := by
  rcases h.shape with ⟨c, rfl⟩ | ⟨s, rfl⟩ | ⟨c, s, -, rfl⟩
  · exact ⟨linear_rat _, c.den, c.den_nz, dvd_rfl, rfl⟩
  · exact ⟨linear_var s, 1, one_ne_zero, one_dvd _, one_eq_rat⟩
  · have hfrac : (mul [rat c, var s]).toFraction =
        ⟨product [rat c.num, var s], rat (c.den : Rat)⟩ := by
      show Fraction.times (Fraction.times ⟨one, one⟩ ⟨rat c.num, rat c.den⟩) ⟨var s, one⟩ = _
      have hone (q : Rat) : one * rat q = rat q := by
        rw [show one * rat q = product [rat 1, rat q] from rfl, product_rat_rat, one_mul]
      have hmul (q : Rat) : rat q * one = rat q := by
        rw [show rat q * one = product [rat q, rat 1] from rfl, product_rat_rat, mul_one]
      simp only [Fraction.times, hone, hmul]
      rfl
    rw [hfrac]
    exact ⟨product_rat_linear _ (linear_var s), c.den, c.den_nz, dvd_rfl, rfl⟩

theorem sumFractions_linear {ts : List Expr} (h : ∀ t ∈ ts, LinearTerm t) {n : Nat} {acc : Fraction}
    (hacc : acc.LinearOver n) :
    (sumFractions acc ts).LinearOver (n * (ts.map fun t => t.splitCoeff.1.den).prod) := by
  induction ts generalizing n acc with
  | nil => simpa [sumFractions] using hacc
  | cons t ts ih =>
    obtain ⟨ht, hts⟩ := List.forall_mem_cons.1 h
    rw [sumFractions, List.map_cons, List.prod_cons, ← mul_assoc]
    exact ih hts (hacc.plus ht.toFraction)

/-- The product of the denominators of the coefficients. -/
def denominators (x : Expr) : Nat := (x.terms.map fun t => t.splitCoeff.1.den).prod

theorem Linear.toFraction {x : Expr} (h : Linear x) : x.toFraction.LinearOver (denominators x) := by
  rcases h.cases_row with ht | ⟨ts, hts, -, rfl⟩
  · simpa [denominators, terms_of_notSum ht.notSum] using ht.toFraction
  · have hstart : Fraction.LinearOver 1 ⟨zero, one⟩ :=
      ⟨linear_rat 0, 1, one_ne_zero, dvd_rfl, one_eq_rat⟩
    rw [Expr.toFraction, ← one_mul (denominators _)]
    exact sumFractions_linear hts.linear hstart

theorem denominators_ne_zero (x : Expr) : denominators x ≠ 0 := by
  refine List.prod_ne_zero fun h => ?_
  obtain ⟨t, -, ht⟩ := List.mem_map.1 h
  exact Rat.den_nz _ ht

/-! ## Coefficients in a variable -/

/-- What a term of a linear form contributes to the coefficients: its coefficient if it is a multiple of the variable,
else itself. -/
def splitTerm (v : String) (t : Expr) : Nat × Expr :=
  if t.splitCoeff.2 = var v then (1, rat t.splitCoeff.1) else (0, t)

theorem monomial?_linear {t : Expr} (h : LinearTerm t) (v : String) :
    monomial? v t = some (splitTerm v t) := by
  rcases h.shape with ⟨c, rfl⟩ | ⟨s, rfl⟩ | ⟨c, s, -, rfl⟩
  · simp [monomial?, hasVar, exist, splitTerm, splitCoeff, one]
  · by_cases hs : s = v <;>
      simp [monomial?, hasVar, exist, splitTerm, splitCoeff, varDegree?, one, hs]
  · by_cases hs : s = v <;>
      simp [monomial?, hasVar, exist, existAny, splitTerm, splitCoeff, ofFactors, varDegree?, varDegreeAll?,
        hs, product_rat]

theorem mapM_monomial? {ts : List Expr} (h : ∀ t ∈ ts, LinearTerm t) (v : String) :
    ts.mapM (monomial? v) = some (ts.map (splitTerm v)) := by
  induction ts with
  | nil => rfl
  | cons t ts ih =>
    obtain ⟨ht, hts⟩ := List.forall_mem_cons.1 h
    simp [List.mapM_cons, monomial?_linear ht, ih hts]

theorem foldl_max_le {ks : List Nat} {n b : Nat} (hn : n ≤ b) (hks : ∀ k ∈ ks, k ≤ b) :
    ks.foldl max n ≤ b := by
  induction ks generalizing n with
  | nil => exact hn
  | cons k ks ih =>
    obtain ⟨hk, hks⟩ := List.forall_mem_cons.1 hks
    exact ih (max_le hn hk) hks

/-- What occurs in a linear form has a coefficient. -/
theorem Linear.exists_term {x : Expr} (h : Linear x) {v : String} (hv : x.hasVar v = true) :
    ∃ t ∈ x.terms, t.splitCoeff.2 = var v := by
  by_contra hnone
  push Not at hnone
  have hfree : ∀ t ∈ x.terms, VarsIn (· ≠ v) t := by
    intro t ht
    have hrest := hnone t ht
    rcases (h.terms t ht).shape with ⟨c, rfl⟩ | ⟨s, rfl⟩ | ⟨c, s, -, rfl⟩
    · trivial
    · simpa [VarsIn, splitCoeff] using hrest
    · simpa [VarsIn, AllVarsIn, splitCoeff, ofFactors] using hrest
  have hall : VarsIn (· ≠ v) x := by
    cases x with
    | add ts => exact (hereditary_varsIn.add ts).2 hfree
    | _ => exact hfree _ (List.mem_singleton_self _)
  rw [varsIn_ne_iff, hv] at hall
  cases hall

theorem Linear.slope_ne_zero {x : Expr} (h : Linear x) {v : String} (hv : x.hasVar v = true) :
    slopeAlong x v ≠ 0 := by
  obtain ⟨t, ht, hr⟩ := h.exists_term hv
  obtain ⟨ts, hts, rfl⟩ := h
  have hne : ts ≠ [] := by
    rintro rfl
    simp [ofTerms, hasVar, exist, zero] at hv
  rw [hts.terms hne] at ht
  rw [hts.slope_eq, ← hr, coeffOf_of_mem hts.rests ht]
  intro hzero
  cases hts.linear t ht with
  | constant c => cases hr
  | multiple hc s =>
    rw [splitCoeff_multiple] at hzero
    exact hc hzero

/-- A sum of rationals is a rational. -/
theorem sum_map_rat (cs : List Rat) : sum (cs.map rat) = rat cs.sum := by
  have hlinear : Linear (sum (cs.map rat)) := by
    refine sum_linear fun x hx => ?_
    obtain ⟨c, -, rfl⟩ := List.mem_map.1 hx
    exact linear_rat c
  refine linear_ext hlinear (linear_rat _) fun ρ => ?_
  have hsum := sum_keepsValue (.ofVars ρ) (cs.map rat) ((defined_add _).2 (by simp))
  rw [valueAt, hsum.2, eval_add, List.map_map]
  exact congrArg List.sum (List.map_id cs)

theorem splitTerm_zero (v : String) (ts : List Expr) :
    ((ts.map (splitTerm v)).filter fun m => m.1 = 0).map (·.2) =
      ts.filter fun t => t.splitCoeff.2 ≠ var v := by
  induction ts with
  | nil => rfl
  | cons t ts ih =>
    by_cases h : t.splitCoeff.2 = var v
    · simpa [splitTerm, h] using ih
    · simpa [splitTerm, h] using ih

theorem splitTerm_one (v : String) (ts : List Expr) :
    ((ts.map (splitTerm v)).filter fun m => m.1 = 1).map (·.2) =
      ((ts.filter fun t => t.splitCoeff.2 = var v).map fun t => t.splitCoeff.1).map rat := by
  induction ts with
  | nil => rfl
  | cons t ts ih =>
    by_cases h : t.splitCoeff.2 = var v
    · simpa [splitTerm, h] using ih
    · simpa [splitTerm, h] using ih

/-- The terms of a linear form other than the multiple of a variable. -/
def withoutVar (x : Expr) (v : String) : Expr := sum (x.terms.filter fun t => t.splitCoeff.2 ≠ var v)

theorem Linear.withoutVar {x : Expr} (h : Linear x) (v : String) : Linear (x.withoutVar v) :=
  sum_linear fun t ht => (h.terms t (List.mem_of_mem_filter ht)).linear

theorem Linear.varsIn_withoutVar {x : Expr} (h : Linear x) {v : String} {p : String → Prop}
    (hx : VarsIn p x) : VarsIn (fun s => p s ∧ s ≠ v) (x.withoutVar v) := by
  refine hereditary_varsIn.sum fun t ht => ?_
  obtain ⟨ht, hrest⟩ := List.mem_filter.1 ht
  have hterm := ((h.plain hx).terms t ht).varsIn
  rcases (h.terms t ht).shape with ⟨c, rfl⟩ | ⟨s, rfl⟩ | ⟨c, s, -, rfl⟩
  · trivial
  · exact ⟨hterm, by simpa [splitCoeff] using hrest⟩
  · exact ⟨trivial, ⟨hterm.2.1, by simpa [splitCoeff, ofFactors] using hrest⟩, trivial⟩

/-- The coefficients in a variable that occurs: two of them without zeros at the end, or a single zero. -/
theorem Linear.exists_coefficients {x : Expr} (h : Linear x) {v : String} (hv : x.hasVar v = true) :
    ∃ q cs, x.coefficients? v = some cs ∧ (cs = dropZeroLead [x.withoutVar v, rat q] ∨
      cs = [zero] ∧ dropZeroLead [x.withoutVar v, rat q] = []) := by
  obtain ⟨t, ht, hr⟩ := h.exists_term hv
  have hdegree : ((x.terms.map (splitTerm v)).map (·.1)).foldl max 0 = 1 := by
    refine le_antisymm (foldl_max_le zero_le_one ?_) ((le_foldl_max _ 0).2 1 ?_)
    · simp only [List.map_map, List.mem_map, Function.comp_apply, splitTerm]
      rintro k ⟨u, -, rfl⟩
      split <;> simp
    · simp only [List.map_map, List.mem_map, Function.comp_apply, splitTerm]
      exact ⟨t, ht, by rw [if_pos hr]⟩
  rw [Expr.coefficients?, h.expand, mapM_monomial? h.terms, Option.map_some]
  dsimp only
  rw [hdegree, show List.range (1 + 1) = [0, 1] from rfl]
  simp only [List.map_cons, List.map_nil]
  rw [splitTerm_zero, splitTerm_one, sum_map_rat]
  refine ⟨((x.terms.filter fun t => t.splitCoeff.2 = var v).map fun t => t.splitCoeff.1).sum, _, rfl, ?_⟩
  split
  · rename_i hnil
    exact .inr ⟨rfl, hnil⟩
  · exact .inl rfl

/-- A linear form is affine in each of its variables. -/
theorem Linear.coefficients? {x : Expr} (h : Linear x) {v : String} (hv : x.hasVar v = true) :
    x.coefficients? v = some [x.withoutVar v, rat (slopeAlong x v)] ∧
      ∀ ρ, valueAt ρ x = valueAt ρ (x.withoutVar v) + slopeAlong x v * ρ v := by
  obtain ⟨q, cs, hq, hshape⟩ := h.exists_coefficients hv
  have hrest := h.withoutVar v
  have hplain := hrest.plain (h.varsIn_withoutVar (v := v) (varsIn_true x))
  have hvalue : ∀ ρ, valueAt ρ x = valueAt ρ (x.withoutVar v) + q * ρ v := by
    intro ρ
    have hcs := coefficients?_value (p := .ofVars ρ) (h.defined _) hq
    have hvx := ((h.plain (varsIn_true x)).reading (r := (CirclePoint.ofVars ρ).reading) (s := .ofVars ρ)
      fun _ _ => rfl).2
    have hvr := (hplain.reading (r := (CirclePoint.ofVars ρ).reading) (s := .ofVars ρ) fun _ _ => rfl).2
    have hdrop := dropZeroLead_value (CirclePoint.ofVars ρ).reading (ρ v) [x.withoutVar v, rat q]
    rw [hvx] at hcs
    rw [valueAt, valueAt, ← hcs, ← hvr]
    have hlist : RatPoly.evalList (ρ v) ([x.withoutVar v, rat q].map (eval (CirclePoint.ofVars ρ).reading)) =
        eval (CirclePoint.ofVars ρ).reading (x.withoutVar v) + q * ρ v := by
      simp [RatPoly.evalList]
      ring
    rw [← hlist, ← hdrop]
    rcases hshape with rfl | ⟨rfl, hnil⟩
    · rfl
    · rw [hnil]
      simp [RatPoly.evalList, zero]
  have hslope : slopeAlong x v = q := by
    have hsame : valueAt (unitPoint v) (x.withoutVar v) = valueAt (fun _ => 0) (x.withoutVar v) := by
      refine (hplain.reading fun s hs => ?_).2
      show unitPoint v s = 0
      rw [unitPoint, if_neg hs.2]
    rw [slopeAlong, offset, hvalue, hvalue, hsame, unitPoint, if_pos rfl]
    ring
  have hq0 : q ≠ 0 := hslope ▸ h.slope_ne_zero hv
  have hdrop : dropZeroLead [x.withoutVar v, rat q] = [x.withoutVar v, rat q] := by
    simp [dropZeroLead, isZero, hq0]
  rw [hslope]
  refine ⟨?_, hvalue⟩
  rw [hdrop] at hshape
  rcases hshape with rfl | ⟨-, hnil⟩
  · exact hq
  · cases hnil

/-! ## Reduced fractions -/

theorem length_dropZeroLead_le (cs : List Expr) : (dropZeroLead cs).length ≤ cs.length := by
  induction cs with
  | nil => simp [dropZeroLead]
  | cons c cs ih =>
    unfold dropZeroLead
    split
    · split <;> simp
    · rename_i d ds h
      rw [h] at ih
      simpa using ih

theorem length_of_mapM {α β : Type} {f : α → Option β} {xs : List α} {ys : List β} (h : xs.mapM f = some ys) :
    ys.length = xs.length := (forall₂_of_mapM_eq_some h).length_eq.symm

/-- A linear form has at most two coefficients in every variable. -/
theorem Linear.length_coeffs_le {x : Expr} (h : Linear x) {v : String} {p : RatPoly}
    (hp : x.ratPoly? v = some p) : p.coeffs.length ≤ 2 := by
  obtain ⟨cs, hcs, hp⟩ := Option.bind_eq_some_iff.1 hp
  obtain ⟨qs, hqs, rfl⟩ := Option.map_eq_some_iff.1 hp
  have hlen : cs.length ≤ 2 := by
    rw [Expr.coefficients?, h.expand, mapM_monomial? h.terms, Option.map_some, Option.some.injEq] at hcs
    have hdegree : ((x.terms.map (splitTerm v)).map (·.1)).foldl max 0 ≤ 1 := by
      refine foldl_max_le zero_le_one ?_
      simp only [List.map_map, List.mem_map, Function.comp_apply, splitTerm]
      rintro k ⟨u, -, rfl⟩
      split <;> simp
    dsimp only at hcs
    split at hcs
    · simp [← hcs]
    · rw [← hcs]
      refine (length_dropZeroLead_le _).trans ?_
      simpa using hdegree
  exact (length_stripZeros_le qs).trans ((length_of_mapM hqs).trans_le hlen)

theorem ratPoly?_rat {c : Rat} (hc : c ≠ 0) (v : String) :
    (rat c).ratPoly? v = some (RatPoly.ofList [c]) := by
  have hsum : sum [rat c] = rat c := by
    have h := sum_map_rat [c]
    simpa using h
  simp [ratPoly?, Expr.coefficients?, expand, terms, monomial?, hasVar, exist, List.range_succ, hsum, dropZeroLead,
    isZero, hc, rat?]

theorem power_var_zero (v : String) : power (var v) (int 0) = rat 1 := by
  obtain ⟨k, hk⟩ := roundsFor_eq ((var v).size + (int 0).size)
  rw [power, hk, powerWithin]
  exact powerStep_zero _ _ (.var v)

theorem power_var_one (v : String) : power (var v) (int 1) = var v := by
  obtain ⟨k, hk⟩ := roundsFor_eq ((var v).size + (int 1).size)
  rw [power, hk, powerWithin]
  exact powerStep_one _ _ (.var v)

/-- A polynomial of degree at most one is a linear form. -/
theorem ofRatPoly_linear {p : RatPoly} (h : p.coeffs.length ≤ 2) (v : String) : Linear (ofRatPoly p v) := by
  have hterm (k : Nat) (hk : k ≤ 1) (c : Rat) : Linear (product [rat c, power (var v) (int k)]) := by
    refine product_rat_linear c ?_
    rcases Nat.le_one_iff_eq_zero_or_eq_one.1 hk with rfl | rfl
    · exact power_var_zero v ▸ linear_rat 1
    · exact power_var_one v ▸ linear_var v
  have hall : ∀ (k : Nat) (cs : List Rat), k + cs.length ≤ 2 → ∀ t ∈ polyTerms v k cs, Linear t := by
    intro k cs hlen
    induction cs generalizing k with
    | nil => simp [polyTerms]
    | cons c cs ih =>
      rw [List.length_cons] at hlen
      rw [polyTerms]
      split
      · exact ih _ (by omega)
      · exact List.forall_mem_cons.2 ⟨hterm k (by omega) c, ih _ (by omega)⟩
  exact sum_linear (hall 0 p.coeffs (by omega))

/-- Over a constant the reduced fraction is a linear form. -/
theorem reduceFraction?_linear {p : RatPoly} (hp : p.coeffs.length ≤ 2) {d : Rat} {v : String} {y : Expr}
    (h : reduceFraction? p (.ofList [d]) v = some y) : Linear y := by
  unfold reduceFraction? at h
  split at h
  · cases h
  · rename_i hdz
    dsimp only at h
    rw [Option.ite_none_left_eq_some] at h
    obtain ⟨hbz, h⟩ := h
    obtain rfl := Option.some.inj h
    have hg := RatPoly.gcd_isZero (a := p) (Bool.eq_false_of_not_eq_true hdz)
    obtain ⟨hdn, hdd⟩ := RatPoly.gcd_dvd p (.ofList [d])
    have htop := RatPoly.length_le_of_mul (RatPoly.toPoly_ne_zero hg) (RatPoly.divMod_of_dvd hg hdn)
    have hbottom := RatPoly.length_le_of_mul (RatPoly.toPoly_ne_zero hg) (RatPoly.divMod_of_dvd hg hdd)
    generalize (p.divMod (p.gcd (.ofList [d]))).1 = top at htop ⊢
    generalize ((RatPoly.ofList [d]).divMod (p.gcd (.ofList [d]))).1 = bottom at hbz hbottom ⊢
    have htopscale : (top.scale bottom.lead⁻¹).coeffs.length ≤ 2 := by
      refine (length_stripZeros_le _).trans ?_
      rw [List.length_map]
      exact htop.trans hp
    -- the denominator that is left is a constant, and monic
    have hone : bottom.monic = .ofList [1] := by
      have hle : bottom.coeffs.length ≤ 1 := hbottom.trans (length_stripZeros_le [d])
      obtain ⟨hlast, hlead⟩ := RatPoly.getLast?_coeffs (Bool.eq_false_of_not_eq_true hbz)
      obtain ⟨b, hb⟩ : ∃ b, bottom.coeffs = [b] := by
        match hcs : bottom.coeffs with
        | [] => simp [hcs] at hlast
        | [b] => exact ⟨b, rfl⟩
        | b :: c :: cs => simp [hcs] at hle
      have hbl : bottom.lead = b := by simp [RatPoly.lead, hb]
      rw [RatPoly.monic, hb, List.map_singleton, hbl, div_self (hbl ▸ hlead)]
    have hden : ofRatPoly bottom.monic v = rat 1 := by
      rw [hone]
      have hterms : polyTerms v 0 (RatPoly.ofList [1]).coeffs = [product [rat 1, power (var v) (int 0)]] := by
        simp [RatPoly.ofList, stripZeros, polyTerms]
      rw [ofRatPoly, hterms, power_var_zero, product_rat_rat]
      simpa using sum_map_rat [1 * 1]
    rw [hden]
    exact div_linear (ofRatPoly_linear htopscale v) one_ne_zero (by decide)

/-! ## Simplification -/

/-- The size of the denominators of the coefficients. -/
def denBits (x : Expr) : Nat := (x.terms.map fun t => bitLength t.splitCoeff.1.den).sum

theorem powerFits_neg_one {q : Rat} (h : Rational.bits q ≤ maxPowerBits) : powerFits q (-1) = true := by
  have hword : fitsWord (-1) = true := by decide
  have hexp : 1 ≤ maxExponent.natAbs := by decide
  simpa [powerFits, hword, hexp] using h

/-- The common denominator of a linear form has a reciprocal. -/
theorem Linear.powerFits_den {x : Expr} (h : Linear x) (hbits : denBits x + 2 ≤ maxPowerBits) :
    ∃ d : Nat, d ≠ 0 ∧ x.toFraction.den = rat d ∧ powerFits d (-1) = true := by
  obtain ⟨d, hd, hdvd, hden⟩ := h.toFraction.den
  refine ⟨d, hd, hden, powerFits_neg_one ?_⟩
  have hle := bitLength_of_dvd (denominators_ne_zero x) hdvd
  have hprod := bitLength_prod_le (x.terms.map fun t => t.splitCoeff.1.den)
  rw [List.map_map] at hprod
  rw [Rational.bits_natCast]
  have hsame : bitLength (denominators x) ≤ denBits x + 1 := hprod
  omega

theorem Linear.cancel? {x y : Expr} (h : Linear x) (hbits : denBits x + 2 ≤ maxPowerBits)
    (hy : x.cancel? = some y) : Linear y := by
  obtain ⟨d, hd, hden, hfits⟩ := h.powerFits_den hbits
  have hd0 : (d : Rat) ≠ 0 := Nat.cast_ne_zero.2 hd
  have hnum := h.toFraction.num
  have hexpand : x.toFraction.den.expand = rat (d : Rat) := (congrArg Expr.expand hden).trans rfl
  simp only [Expr.cancel?, hnum.expand, hexpand, Option.ite_none_left_eq_some] at hy
  obtain ⟨-, -, hy⟩ := hy
  split at hy
  · rename_i v _
    rw [ratPoly?_rat hd0] at hy
    split at hy
    · rename_i p q hp hq
      obtain rfl := Option.some.inj hq
      exact reduceFraction?_linear (hnum.length_coeffs_le hp) hy
    · exact Option.some.inj hy ▸ div_linear hnum hd0 hfits
  · exact Option.some.inj hy ▸ div_linear hnum hd0 hfits

/-- Simplification leaves a linear form as it is, unless its denominators are too large. -/
theorem Linear.simplify {x : Expr} (h : Linear x) (hbits : denBits x + 2 ≤ maxPowerBits) : x.simplify = x := by
  rcases simplify_mem x with hself | hform
  · exact hself
  · simp only [simplifyForms, h.trigIdentities, h.expand, List.mem_cons, List.mem_append] at hform
    rcases hform with (hform | hform) | hform
    · exact hform
    · simp at hform
    · split at hform
      · rename_i y hy
        have hlinear := h.cancel? hbits hy
        obtain rfl : y = x := h.eq_of_keepsValue hlinear fun p => cancel?_keepsValue p hy
        simpa [h.trigIdentities] using hform
      · simp at hform

/-! ## Bounds on coefficients -/

/-- Every coefficient has at most so many binary digits. -/
def CoeffBits (n : Nat) (x : Expr) : Prop := ∀ t ∈ x.terms, Rational.bits t.splitCoeff.1 ≤ n

theorem CoeffBits.denBits_le {n : Nat} {x : Expr} (h : CoeffBits n x) : denBits x ≤ x.terms.length * n := by
  have hall : ∀ k ∈ x.terms.map fun t => bitLength t.splitCoeff.1.den, k ≤ n := by
    intro k hk
    obtain ⟨t, ht, rfl⟩ := List.mem_map.1 hk
    exact (Rational.bitLength_den_le _).trans (h t ht)
  have hsum := List.sum_le_card_nsmul _ n hall
  simpa [denBits] using hsum

/-- The coefficients as values: at the origin, and the changes to the unit points. -/
theorem Linear.coeffBits_iff {x : Expr} (h : Linear x) {n : Nat} (hn : 1 ≤ n) :
    CoeffBits n x ↔ Rational.bits (offset x) ≤ n ∧ ∀ s, Rational.bits (slopeAlong x s) ≤ n := by
  have hzero : Rational.bits 0 ≤ n := by
    have : Rational.bits 0 = 1 := by decide
    omega
  constructor
  · intro hbits
    constructor
    · rcases h.offset_cases with h0 | ⟨t, ht, hc⟩
      · rwa [h0]
      · exact hc ▸ hbits t ht
    · intro s
      rcases h.slope_cases s with h0 | ⟨t, ht, hc⟩
      · rwa [h0]
      · exact hc ▸ hbits t ht
  · intro hbits t ht
    rcases h.coeff_eq ht with hc | ⟨s, -, hc⟩
    · exact hc ▸ hbits.1
    · exact hc ▸ hbits.2 s

/-- A linear form has at most one term for every variable, and one more. -/
theorem Linear.length_terms_le {x : Expr} (h : Linear x) {vars : List String} (hvars : VarsIn (· ∈ vars) x) :
    x.terms.length ≤ vars.length + 1 := by
  have hterm := (h.plain hvars).terms
  obtain ⟨ts, hts, rfl⟩ := h
  by_cases hne : ts = []
  · subst hne
    exact Nat.le_add_left _ _
  · rw [hts.terms hne] at hterm ⊢
    have hsub : (ts.map fun t => t.splitCoeff.2) ⊆ one :: vars.map var := by
      intro r hr
      obtain ⟨t, ht, rfl⟩ := List.mem_map.1 hr
      have hplain := hterm t ht
      rcases (hts.linear t ht).shape with ⟨c, rfl⟩ | ⟨s, rfl⟩ | ⟨c, s, -, rfl⟩
      · exact List.mem_cons_self
      · exact List.mem_cons_of_mem _ (List.mem_map_of_mem hplain)
      · exact List.mem_cons_of_mem _ (List.mem_map_of_mem ((plain_mul _).1 hplain (var s) (by simp)))
    have hlen := (List.subperm_of_subset hts.rests hsub).length_le
    simpa using hlen

/-! ## Substitution -/

theorem Linear.subst {x y : Expr} (hx : Linear x) (hy : Linear y) (s : String) : Linear (x.subst s y) := by
  have hvar (v : String) : Linear ((var v).subst s y) := by
    rw [subst_var]
    split
    · exact hy
    · exact linear_var v
  have hterm : ∀ t, LinearTerm t → Linear (t.subst s y) := by
    intro t ht
    rcases ht.shape with ⟨c, rfl⟩ | ⟨v, rfl⟩ | ⟨c, v, -, rfl⟩
    · exact linear_rat c
    · exact hvar v
    · rw [subst_mul]
      exact product_rat_linear c (hvar v)
  rcases hx.cases_row with ht | ⟨ts, hts, -, rfl⟩
  · exact hterm x ht
  · rw [subst_add]
    refine sum_linear fun y hy => ?_
    obtain ⟨t, ht, rfl⟩ := List.mem_map.1 hy
    exact hterm t (hts.linear t ht)

end SymbolicSolver.Expr
