import Mathlib.Data.Int.Interval
import SymbolicSolver.Proofs.Calculus.FiniteSum
import SymbolicSolver.Proofs.Calculus.Geometric
import SymbolicSolver.Proofs.Calculus.PiTerm
import SymbolicSolver.Proofs.Calculus.Telescoping

/-!
# Infinite sums

An infinite sum has no definition here, but sums from different indices can be compared: the sum from `a` on is the
sum of the terms from `a` to `N` and the sum from `N + 1` on. Every method gives values that lose a term from each
index to the next. The values of geometric sums are multiples of the term, those of even inverse powers are what the
first terms leave of a multiple of a power of `π`, and those of telescoping sums are weighted sums of harmonic numbers.
Which method applies depends on the terms, not on the index.
-/

namespace SymbolicSolver.Expr

variable {f : Expr} {name : String} {g : Int → Rat} {a N : Int} {ρ : String → Rat} {p : Rat}

/-! ## Values that lose a term at each step -/

/-- The sums from the indices from `a` on have the given values wherever they are found and finite, and up to `N` each
value is the term and the next value. -/
structure TailValues (f : Expr) (name : String) (g : Int → Rat) (a N : Int) (ρ : String → Rat) (p : Rat)
    (tail : Int → Rat) : Prop where
  value : ∀ k s, a ≤ k → f.sumInfinite? name k = some s → s.contains infinity = false → HasValueAt ρ p s (tail k)
  step : ∀ k, a ≤ k → k ≤ N → tail k = g k + tail (k + 1)

theorem sum_Icc_succ (h : Int → Rat) {M : Int} (haM : a ≤ M + 1) :
    ∑ k ∈ Finset.Icc a (M + 1), h k = ∑ k ∈ Finset.Icc a M, h k + h (M + 1) := by
  have hinsert : Finset.Icc a (M + 1) = insert (M + 1) (Finset.Icc a M) := by
    ext k
    simp only [Finset.mem_insert, Finset.mem_Icc]
    omega
  rw [hinsert, Finset.sum_insert (by simp), add_comm]

/-- What a run of steps loses. -/
theorem TailValues.sum {tail : Int → Rat} (h : TailValues f name g a N ρ p tail) (haN : a ≤ N) :
    tail a = ∑ k ∈ Finset.Icc a N, g k + tail (N + 1) := by
  suffices hrun : ∀ M, a ≤ M → M ≤ N → tail a = ∑ k ∈ Finset.Icc a M, g k + tail (M + 1) from hrun N haN le_rfl
  intro M haM
  induction M, haM using Int.leInduction with
  | base =>
    intro hN
    rw [Finset.Icc_self, Finset.sum_singleton]
    exact h.step a le_rfl hN
  | succ M haM ih =>
    intro hMN
    rw [ih (by omega), sum_Icc_succ g (by omega), h.step (M + 1) (by omega) hMN, ← add_assoc]

/-! ## Polynomials -/

/-- Only the zero polynomial has a finite sum. -/
theorem coefficients_of_finite {cs : List Expr} {s : Expr} (hcs : f.coefficients? name = some cs)
    (h : infinitePolynomial? cs = some s) (hs : s.contains infinity = false) : cs = [zero] := by
  rw [coefficients?_eq] at hcs
  obtain ⟨ms, -, rfl⟩ := Option.map_eq_some_iff.1 hcs
  cases hdrop : dropZeroLead (collect ms) with
  | nil => rfl
  | cons d ds =>
    rw [hdrop] at h
    dsimp only at h
    rw [infinitePolynomial?] at h
    split at h
    · cases h
    · rename_i lead hlead
      rw [isZero_getLast_dropZeroLead (hdrop ▸ hlead), if_neg Bool.false_ne_true] at h
      obtain ⟨i, -, rfl⟩ := Option.map_eq_some_iff.1 h
      split at hs <;> cases hs

/-- A polynomial with a finite sum vanishes at every index. -/
theorem tailValues_polynomial {q : String → Prop} {cs : List Expr} {s : Expr} (hf : Plain q f)
    (hd : ∀ k : Int, a ≤ k → k ≤ N → DefinedAt (fun _ => k) f) (hcs : f.coefficients? name = some cs)
    (hs : f.sumInfinite? name a = some s) (hfinite : s.contains infinity = false) :
    TailValues f name (fun k => valueAt (fun _ => k) f) a N ρ p fun _ => 0 := by
  have hmethod (k : Int) : f.sumInfinite? name k = infinitePolynomial? cs := by rw [sumInfinite?, hcs]
  rw [hmethod] at hs
  obtain rfl := coefficients_of_finite hcs hs hfinite
  refine ⟨fun k t _ ht _ => ?_, fun k hak hkN => ?_⟩
  · rw [hmethod] at ht
    obtain rfl : zero = t := Option.some.inj ht
    exact hasValueAt_of_definedAt p (defined_rat 0)
  · have hvalue := hf.coefficients?_value (hd k hak hkN) hcs
    rw [← hvalue]
    simp [RatPoly.evalList, zero]

/-! ## Geometric sequences -/

theorem infiniteGeometric?_finite {first q s : Expr} (h : infiniteGeometric? first q = some s)
    (hs : s.contains infinity = false) :
    s = first / (one - q) ∧ ∃ z, q.evaluateConstant = .ok z ∧ z.re.abs < 1 := by
  rw [infiniteGeometric?] at h
  split at h
  · cases h
  · rename_i z hz
    split at h
    · cases h
    · split at h
      · rename_i hlt
        exact ⟨(Option.some.inj h).symm, z, hz, hlt⟩
      · split at h
        · split at h
          · obtain rfl := Option.some.inj h
            cases hs
          · obtain rfl := Option.some.inj h
            cases hs
          · cases h
        · cases h

theorem defined_one_sub {q : Expr} (hq : DefinedAt ρ q) : DefinedAt ρ (one - q) ∧ valueAt ρ (one - q) = 1 - valueAt ρ q := by
  obtain ⟨hneg, hvneg⟩ := Defined.times (defined_rat (r := .ofVars ρ) (-1)) hq
  obtain ⟨hd, hv⟩ := Defined.plus (defined_rat (r := .ofVars ρ) 1) hneg
  refine ⟨hd, hv.trans ?_⟩
  rw [hvneg, eval_rat, eval_rat]
  ring

theorem geometric_termAt {c r : Rat} (hr0 : r ≠ 0) (k : Int) :
    DefinedAt ρ (termAt (times c [pow (rat r) (var name)]) name k) ∧
      valueAt ρ (termAt (times c [pow (rat r) (var name)]) name k) = c * r ^ k := by
  have hpow : (pow (rat r) (var name)).subst name (int k) = power (rat r) (int k) := by
    rw [subst_pow, subst_var, if_pos rfl]
    rfl
  obtain ⟨hd, hv⟩ := Defined.power (n := k) (defined_rat (r := .ofVars ρ) r) (.inr hr0)
  rw [eval_rat] at hv
  by_cases hc1 : c = 1
  · rw [hc1, times_one_singleton, termAt, hpow, one_mul]
    exact ⟨hd, hv⟩
  · have hterm : termAt (times c [pow (rat r) (var name)]) name k = rat c * power (rat r) (int k) := by
      rw [termAt, times_of_ne_one hc1 (by simp), subst_mul, List.map_cons, List.map_cons, List.map_nil, hpow]
      rfl
    obtain ⟨hdt, hvt⟩ := Defined.times (defined_rat (r := .ofVars ρ) c) hd
    rw [hterm]
    exact ⟨hdt, hvt.trans (by rw [hv, eval_rat])⟩

/-- The sum from an index on is the term over one less the ratio. -/
theorem tailValues_geometric {c r : Rat} (hc : c ≠ 0) (hr0 : r ≠ 0) (hr : r ≠ 1) :
    TailValues (times c [pow (rat r) (var name)]) name (fun k => c * r ^ k) a N ρ p fun k => c * r ^ k / (1 - r) := by
  obtain ⟨q, hq, hvalue⟩ := geometric_ratio? hc hr0 hr name
  have hne : 1 - r ≠ 0 := sub_ne_zero.2 (Ne.symm hr)
  refine ⟨fun k s _ hs hfinite => ?_, fun k _ _ => ?_⟩
  · rw [sumInfinite?, geometric_coefficients? hc hr] at hs
    dsimp only at hs
    rw [hq] at hs
    obtain ⟨rfl, -⟩ := infiniteGeometric?_finite hs hfinite
    obtain ⟨hdq, hvq⟩ := hvalue ρ
    obtain ⟨hd1, hv1⟩ := defined_one_sub hdq
    obtain ⟨hdt, hvt⟩ := @geometric_termAt name ρ c r hr0 k
    rw [hvq] at hv1
    obtain ⟨hd, hv⟩ := Defined.over hdt hd1 (by rw [← valueAt, hv1]; exact hne)
    have heq : valueAt ρ (termAt (times c [pow (rat r) (var name)]) name k / (one - q)) = c * r ^ k / (1 - r) := by
      rw [← hvt, ← hv1]
      exact hv
    exact heq ▸ hasValueAt_of_definedAt p hd
  · rw [zpow_add_one₀ hr0]
    field_simp
    ring

/-! ## Even inverse powers -/

/-- A power of `π` over a whole number. -/
theorem pi_power_over {m d : Nat} (hm : 2 ≤ m) (hd : d ≠ 0) (hfits : powerFits d (-1) = true) :
    power pi (int m) / int d = times (1 / d) [pow pi (rat m)] := by
  have hcanon := (monomial_pi_power hm).canonical _ (List.mem_singleton_self _)
  have hpow (k : Nat) : powerWithin (k + 1) pi (rat m) = pow pi (rat m) := (asBase_spec _ _ hcanon rfl rfl).2.2
  have hpower : power pi (int m) = pow pi (rat m) := power_base (n := m) hcanon
  have hd' : (d : Rat) ≠ 0 := by exact_mod_cast hd
  have hquotient : power pi (int m) / int d = product [pow pi (rat m), rat (d : Rat)⁻¹] := by
    rw [hpower, ← inverse_rat hd' hfits]
    rfl
  obtain ⟨k, hk⟩ := roundsFor_eq (sizeAll [pow pi (rat m), rat (d : Rat)⁻¹])
  rw [hquotient, product, hk]
  simp [productWithin, productStep, flattenFactors, collectBases, FactorGroups.insertBase, collectBase, hpow,
    collectRebuilt, FactorGroups.insertFactor, multiplyOut, isProduct, assemble, sortFactors, times, hd]

theorem zetaValue?_eq {n : Int} {z : Expr} (h : zetaValue? n = some z) :
    ∃ (q : Rat) (m : Nat), q ≠ 0 ∧ 2 ≤ m ∧ n = m ∧ z = times q [pow pi (rat m)] := by
  have hover (m d : Nat) (hm : 2 ≤ m) (hd : d ≠ 0) (hfits : powerFits d (-1) = true)
      (hz : power pi (int m) / int d = z) :
      ∃ (q : Rat) (k : Nat), q ≠ 0 ∧ 2 ≤ k ∧ (m : Int) = k ∧ z = times q [pow pi (rat k)] :=
    ⟨1 / d, m, by simpa using hd, hm, rfl, by rw [← hz, pi_power_over hm hd hfits]⟩
  unfold zetaValue? at h
  split at h
  · exact hover 2 6 le_rfl (by decide) (by decide) (Option.some.inj h)
  · exact hover 4 90 (by decide) (by decide) (by decide) (Option.some.inj h)
  · exact hover 6 945 (by decide) (by decide) (by decide) (Option.some.inj h)
  · exact hover 8 9450 (by decide) (by decide) (by decide) (Option.some.inj h)
  · cases h

/-- Whether the term is an even inverse power does not depend on the index. -/
theorem infiniteInversePower?_cases (f : Expr) (name : String) :
    (∃ (n : Int) (z : Expr), f.splitCoeff.2 = pow (var name) (rat n) ∧ zetaValue? (-n) = some z ∧
      ∀ k, infiniteInversePower? f name k =
        some (rat f.splitCoeff.1 * (z - sumTerms f.splitCoeff.2 name 1 (k - 1)))) ∨
      ∀ k s, infiniteInversePower? f name k = some s → s.contains infinity = true := by
  unfold infiniteInversePower?
  dsimp only
  split
  · rename_i v x hrest
    by_cases hv : v = name
    · subst hv
      cases hx : x.smallInt? with
      | none => exact .inr fun k s h => by simp at h
      | some n =>
        obtain rfl := smallInt?_eq_some hx
        by_cases hn : n = -1
        · refine .inr fun k s h => ?_
          simp only [ne_eq, not_true_eq_false, if_false, Option.bind_some, if_pos hn] at h
          obtain ⟨i, -, rfl⟩ := Option.map_eq_some_iff.1 h
          split <;> rfl
        · cases hz : zetaValue? (-n) with
          | none => exact .inr fun k s h => by simp [hn, hz] at h
          | some z => exact .inl ⟨n, z, hrest, hz, fun k => by simp [hn, hz, hrest]⟩
    · exact .inr fun k s h => by simp [hv] at h
  · exact .inr fun k s h => by simp at h

theorem built_sumTerms_power (n a b : Int) : Built (sumTerms (pow (var name) (.rat n)) name a b) := by
  refine .sum fun x hx => ?_
  obtain ⟨k, -, rfl⟩ := List.mem_map.1 hx
  rw [termAt, subst_pow, subst_var, if_pos rfl]
  exact .power (.rat k) n

theorem sum_indices (h : Int → Rat) (a b : Int) :
    ((indices a (b + 1 - a).toNat).map h).sum = ∑ k ∈ Finset.Icc a b, h k := by
  rw [← List.sum_toFinset h (nodup_indices _ _)]
  refine Finset.sum_congr ?_ fun _ _ => rfl
  ext k
  rw [List.mem_toFinset, mem_indices, Finset.mem_Icc]
  omega

theorem sumTerms_power_value (n b : Int) :
    DefinedAt ρ (sumTerms (pow (var name) (rat n)) name 1 b) ∧
      valueAt ρ (sumTerms (pow (var name) (rat n)) name 1 b) = ∑ j ∈ Finset.Icc 1 b, (j : Rat) ^ n := by
  have hterm (j : Int) (hj : 1 ≤ j) : DefinedAt (Function.update ρ name j) (pow (var name) (rat n)) := by
    have hne : (j : Rat) ≠ 0 := by exact_mod_cast (by omega : j ≠ 0)
    refine (defined_pow_int _ n).2 ⟨defined_var name, .inr ?_⟩
    simpa [Reading.ofVars] using hne
  obtain ⟨hd, hv⟩ := sumTerms_value (a := 1) (b := b) fun j hj _ => hterm j hj
  refine ⟨hd, hv.trans ?_⟩
  rw [sum_indices]
  exact Finset.sum_congr rfl fun j _ => by simp [Reading.ofVars]

/-- What the first terms leave of a multiple of a power of `π`. -/
theorem tailValues_inversePower {n : Int} {z : Expr} (ha : 1 ≤ a)
    (hd : ∀ k : Int, a ≤ k → k ≤ N → DefinedAt (fun _ => k) f) (hrest : f.splitCoeff.2 = pow (var name) (rat n))
    (hz : zetaValue? (-n) = some z)
    (hmethod : ∀ k s, a ≤ k → f.sumInfinite? name k = some s → s.contains infinity = false →
      s = rat f.splitCoeff.1 * (z - sumTerms f.splitCoeff.2 name 1 (k - 1))) :
    ∃ tail, TailValues f name (fun k => valueAt (fun _ => k) f) a N ρ p tail := by
  obtain ⟨q, m, hq, hm, -, rfl⟩ := zetaValue?_eq hz
  refine ⟨fun k => f.splitCoeff.1 * (q * p ^ m - ∑ j ∈ Finset.Icc 1 (k - 1), (j : Rat) ^ n), ⟨fun k s hak hs hfin => ?_,
    fun k hak hkN => ?_⟩⟩
  · obtain ⟨hdsum, hvsum⟩ := @sumTerms_power_value name ρ n (k - 1)
    rw [hmethod k s hak hs hfin, hrest, ← hvsum]
    exact hasValueAt_pi_power_sub hq hm (built_sumTerms_power n 1 (k - 1)) hdsum _ p
  · have hvalue : f.splitCoeff.1 * (k : Rat) ^ n = valueAt (fun _ => (k : Rat)) f := by
      rw [valueAt, ← (hd k hak hkN).splitCoeff.2, hrest]
      simp [Reading.ofVars]
    have hsum := sum_Icc_succ (fun j => (j : Rat) ^ n) (a := 1) (M := k - 1) (by omega)
    rw [sub_add_cancel] at hsum
    rw [← hvalue, add_sub_cancel_right, hsum]
    ring

/-! ## Telescoping sums -/

/-- A weighted sum of harmonic numbers. -/
theorem tailValues_telescoping {q : String → Prop} {s : Expr} (hf : Plain q f)
    (hd : ∀ k : Int, a ≤ k → k ≤ N → DefinedAt (fun _ => k) f) (hs : infiniteTelescoping? f name a = some s)
    (hmethod : ∀ k t, a ≤ k → f.sumInfinite? name k = some t → t.contains infinity = false →
      infiniteTelescoping? f name k = some t) :
    ∃ tail, TailValues f name (fun k => valueAt (fun _ => k) f) a N ρ p tail := by
  obtain ⟨n, d, hn, hdn, hd0, hlen, hcount, hroots, -⟩ := infiniteTelescoping?_parts hs
  refine ⟨fun k => telescope n d.derivative d.rationalRoots k, ⟨fun k t hak ht hfin => ?_, fun k hak hkN => ?_⟩⟩
  · obtain ⟨n', d', hn', hd', -, -, -, -, rfl⟩ := infiniteTelescoping?_parts (hmethod k t hak ht hfin)
    rw [hn] at hn'
    rw [hdn] at hd'
    obtain rfl := Option.some.inj hn'
    obtain rfl := Option.some.inj hd'
    exact hasValueAt_of_definedAt p (defined_rat _)
  · have hbehind : ∀ r ∈ d.rationalRoots, ((k : Rat) - r).den = 1 ∧ 0 < (k : Rat) - r := by
      intro r hr
      obtain ⟨hden, hpos⟩ := hroots r hr
      have hcast : (k : Rat) - r = ((((a : Rat) - r).num + (k - a) : Int) : Rat) := by
        push_cast
        rw [Rat.coe_int_num_of_den_eq_one hden]
        ring
      have hle : (a : Rat) ≤ k := by exact_mod_cast hak
      exact ⟨hcast ▸ Rat.den_intCast _, by linarith⟩
    have hfraction := toFraction_hasValue f (hd k hak hkN)
    have hsides := inherited_plain.toFraction hf
    have hnum := hsides.num.ratPoly?_value hfraction.num_defined hn
    have hden := hsides.den.ratPoly?_value hfraction.den_defined hdn
    have hne : d.eval k ≠ 0 := hden ▸ hfraction.den_ne_zero
    have hvalue : valueAt (fun _ => (k : Rat)) f = n.eval k / d.eval k := by
      rw [hnum, hden, valueAt, valueAt, hfraction.num_eq, mul_div_cancel_right₀ _ hfraction.den_ne_zero]
    rw [hvalue, Int.cast_add, Int.cast_one]
    exact telescope_fraction hd0 hlen hcount hbehind hne

/-! ## All methods -/

/-- What is summed, with its values at the indices from `a` to `N`: a rational expression in the index that is defined
there, or a rational multiple of a power whose base is a rational other than zero and one. -/
inductive Summand (name : String) (a N : Int) : Expr → (Int → Rat) → Prop
  | rational {f : Expr} (hvars : VarsIn (· = name) f)
      (hd : ∀ k : Int, a ≤ k → k ≤ N → DefinedAt (fun _ => k) f) :
      Summand name a N f fun k => valueAt (fun _ => k) f
  | geometric (c : Rat) {r : Rat} (h0 : r ≠ 0) (h1 : r ≠ 1) :
      Summand name a N (rat c * power (rat r) (var name)) fun k => c * r ^ k

/-- All terms of a rational expression are the same, and yet the quotient of neighbouring terms is taken for a ratio
less than one: it does not simplify to one, though this is its value unless the terms are zero, and it is rounded down
when it is computed. -/
def RoundedRatio (name : String) (f : Expr) : Prop :=
  ∃ (q : Expr) (z : ComplexFloat) (c : Rat), f.ratio? name = some q ∧ q.evaluateConstant = .ok z ∧ z.re.abs < 1 ∧
    (∀ b : Rat, DefinedAt (fun _ => b) f → valueAt (fun _ => b) f = c) ∧
    (c ≠ 0 → ∀ ρ, DefinedAt ρ q ∧ valueAt ρ q = 1)

/-- A rational expression, summed by any of the methods. -/
theorem tailValues_rational {s : Expr} (hvars : VarsIn (· = name) f) (ha : 1 ≤ a) (haN : a ≤ N)
    (hd : ∀ k : Int, a ≤ k → k ≤ N → DefinedAt (fun _ => k) f) (hs : f.sumInfinite? name a = some s)
    (hfinite : s.contains infinity = false) :
    (∃ tail, TailValues f name (fun k => valueAt (fun _ => k) f) a N ρ p tail) ∨ RoundedRatio name f := by
  have hda := hd a le_rfl haN
  have hf := plain_of_definedAt f hda hvars
  cases hcs : f.coefficients? name with
  | some cs => exact .inl ⟨_, tailValues_polynomial hf hd hcs hs hfinite⟩
  | none =>
    cases hratio : f.ratio? name with
    | some q =>
      have hgeometric : infiniteGeometric? (termAt f name a) q = some s := by
        rw [sumInfinite?, hcs] at hs
        dsimp only at hs
        rwa [hratio] at hs
      obtain ⟨-, z, hz, hlt⟩ := infiniteGeometric?_finite hgeometric hfinite
      -- Two values would leave no ratio.
      have hconst (b : Rat) (hb : DefinedAt (fun _ => b) f) :
          valueAt (fun _ => b) f = valueAt (fun _ => (a : Rat)) f := by
        by_contra hne
        rw [ratio?_eq_none hf hb hda hne] at hratio
        cases hratio
      refine .inr ⟨q, z, _, hratio, hz, hlt, hconst, fun hne ρ => ?_⟩
      obtain ⟨b, hb, hb1⟩ := exists_neighbours hda
      have hvalue := ratio?_value hf hratio hb hb1 (by rwa [hconst b hb]) ρ
      rwa [hconst b hb, hconst _ hb1, div_self hne] at hvalue
    | none =>
      have hmethod (k : Int) (hak : a ≤ k) : f.sumInfinite? name k =
          (infiniteInversePower? f name k).or (infiniteTelescoping? f name k) := by
        rw [sumInfinite?, hcs]
        dsimp only
        rw [hratio]
        dsimp only
        rw [if_pos (by omega)]
      left
      rcases infiniteInversePower?_cases f name with ⟨n, z, hrest, hz, hpower⟩ | hinfinite
      · refine tailValues_inversePower ha hd hrest hz fun k t hak ht _ => ?_
        rw [hmethod k hak, hpower, Option.some_or] at ht
        exact (Option.some.inj ht).symm
      · have htelescoping (k : Int) (t : Expr) (hak : a ≤ k) (ht : f.sumInfinite? name k = some t)
            (hfin : t.contains infinity = false) : infiniteTelescoping? f name k = some t := by
          rw [hmethod k hak] at ht
          rcases Option.or_eq_some_iff.1 ht with h | ⟨-, h⟩
          · rw [hinfinite k t h] at hfin
            cases hfin
          · exact h
        exact tailValues_telescoping hf hd (htelescoping a s le_rfl hs hfinite) htelescoping

/-- The sum from `a` to infinity is the sum of the terms from `a` to `N` and the sum from `N + 1` to infinity, whatever
rational stands in the place of `π`, for rational expressions in the index and for multiples of powers. -/
theorem summation?_infinite_tail {m : Nat} {S T : Expr} (ha : 1 ≤ a) (haN : a ≤ N) (hf : Summand name a N f g)
    (hratio : ¬ RoundedRatio name f) (hS : f.summation? name a .infinite m = some S)
    (hT : f.summation? name (N + 1) .infinite m = some T) (hSfin : S.contains infinity = false)
    (hTfin : T.contains infinity = false) (ρ : String → Rat) (p : Rat) :
    ∃ t, HasValueAt ρ p T t ∧ HasValueAt ρ p S (∑ k ∈ Finset.Icc a N, g k + t) := by
  have hlaw (h : ∃ tail, TailValues f name g a N ρ p tail) :
      ∃ t, HasValueAt ρ p T t ∧ HasValueAt ρ p S (∑ k ∈ Finset.Icc a N, g k + t) := by
    obtain ⟨tail, h⟩ := h
    exact ⟨tail (N + 1), h.value _ T (by omega) hT hTfin, h.sum haN ▸ h.value a S le_rfl hS hSfin⟩
  cases hf with
  | rational hvars hd => exact hlaw ((tailValues_rational hvars ha haN hd hS hSfin).resolve_right hratio)
  | @geometric c r h0 h1 =>
    by_cases hc : c = 0
    · -- With the coefficient zero the product is the number zero, a polynomial.
      have hzero : rat c * power (rat r) (var name) = rat 0 := by
        rw [hc, zero_exponential h1 (symbolicExponent_var name)]
      obtain ⟨cs, hcs, -⟩ := Option.bind_eq_some_iff.1 (ReadsAs.of_expand_eq_rat (v := name) (x := rat 0) rfl).reading
      have hterms : (fun k : Int => c * r ^ k) = fun k : Int => valueAt (fun _ => (k : Rat)) (rat 0) := by simp [hc]
      rw [hzero] at hS hlaw
      rw [hterms] at hlaw ⊢
      exact hlaw ⟨_, tailValues_polynomial (q := fun _ => True) trivial (fun _ _ _ => trivial) hcs hS hSfin⟩
    · rw [product_exponential hc h1 (symbolicExponent_var name)] at hlaw
      exact hlaw ⟨_, tailValues_geometric hc h0 h1⟩

/-- The sums of `1 / k²` from `1` and from `3` on. -/
theorem summation?_infinite_tail_squares :
    (pow (var "k") (rat (-2))).summation? "k" 1 .infinite 0 = some (mul [rat (1 / 6), pow pi (rat 2)]) ∧
      (pow (var "k") (rat (-2))).summation? "k" 3 .infinite 0 =
        some (add [mul [rat (1 / 6), pow pi (rat 2)], rat (-5 / 4)]) ∧
      ∀ p, ∃ t, HasValueAt (fun _ => 0) p (add [mul [rat (1 / 6), pow pi (rat 2)], rat (-5 / 4)]) t ∧
        HasValueAt (fun _ => 0) p (mul [rat (1 / 6), pow pi (rat 2)]) (1 + 1 / 4 + t) := by
  have hdefined (k : Rat) (hk : k ≠ 0) : DefinedAt (fun _ => k) (pow (var "k") (rat (-2))) := by
    simp [Reading.ofVars, hk]
  have hvars : VarsIn (· = "k") (pow (var "k") (rat (-2))) := ⟨rfl, trivial⟩
  have hratio : (pow (var "k") (rat (-2))).ratio? "k" = none :=
    ratio?_eq_none (plain_of_definedAt _ (hdefined 1 (by norm_num)) hvars) (hdefined 1 (by norm_num))
      (hdefined 2 (by norm_num)) (by norm_num [Reading.ofVars])
  have hcs : (pow (var "k") (rat (-2))).coefficients? "k" = none := by cbv
  have hS : (pow (var "k") (rat (-2))).summation? "k" 1 .infinite 0 = some (mul [rat (1 / 6), pow pi (rat 2)]) := by
    rw [summation?, sumInfinite?, hcs]
    dsimp only
    rw [hratio]
    cbv
  have hT : (pow (var "k") (rat (-2))).summation? "k" 3 .infinite 0 =
      some (add [mul [rat (1 / 6), pow pi (rat 2)], rat (-5 / 4)]) := by
    rw [summation?, sumInfinite?, hcs]
    dsimp only
    rw [hratio]
    cbv
  have hsummand := Summand.rational (a := 1) (N := 2) hvars fun k hk _ => hdefined k (by exact_mod_cast (by omega))
  have hrounded : ¬ RoundedRatio "k" (pow (var "k") (rat (-2))) := by
    rintro ⟨q, _, _, hq, -⟩
    rw [hratio] at hq
    cases hq
  refine ⟨hS, hT, fun p => ?_⟩
  obtain ⟨t, ht, hs⟩ :=
    summation?_infinite_tail (m := 0) le_rfl (by norm_num) hsummand hrounded hS hT rfl rfl (fun _ => 0) p
  have hterms : ∑ k ∈ Finset.Icc (1 : Int) 2, valueAt (fun _ => (k : Rat)) (pow (var "k") (rat (-2))) = 1 + 1 / 4 := by
    rw [show Finset.Icc (1 : Int) 2 = {1, 2} by rfl, Finset.sum_pair (by decide)]
    norm_num [Reading.ofVars]
  exact ⟨t, ht, hterms ▸ hs⟩

end SymbolicSolver.Expr
