import Mathlib.Algebra.Order.BigOperators.Group.List
import SymbolicSolver.Proofs.Canonical.Constructed
import SymbolicSolver.Proofs.Canonical.Extended

/-!
# Sums with infinite terms

The extended rational that a tree of rationals, variables and infinities stands for, and what the canonical sum makes of
it. Bare infinities are told apart by their signs, so infinities of both signs have no sum. An infinity behind other
factors is a term like any other: it is collected by what its coefficient multiplies, and its coefficients may cancel.
The canonical sum therefore has the sum of the values, except that two terms that differ in their coefficient only may be
infinite with different signs.
-/

namespace SymbolicSolver.Expr

open Extended

variable {ρ : String → ℚ} {x t : Expr} {xs ts : List Expr}

/-! ## The value of a tree -/

mutual

/-- The extended rational that a tree of rationals, variables and infinities stands for, where variables have the given
values; it is missing where it is indeterminate, and for other trees. -/
def extended? (ρ : String → ℚ) : Expr → Option Extended
  | rat q => some (number q)
  | var s => some (number (ρ s))
  | infinity => some posInf
  | add ts => (extendedAll? ρ ts).bind sum?
  | mul fs => (extendedAll? ρ fs).bind product?
  | pow b (rat q) => if q.den = 1 then (extended? ρ b).bind (power? q.num) else none
  | _ => none

/-- The values of the trees of a list, if none is missing. -/
def extendedAll? (ρ : String → ℚ) : List Expr → Option (List Extended)
  | [] => some []
  | x :: xs => (extended? ρ x).bind fun l => (extendedAll? ρ xs).map (l :: ·)

end

/-- The value of a tree that has one. -/
def extendedValue (ρ : String → ℚ) (x : Expr) : Extended := (x.extended? ρ).getD (number 0)

/-- The tree has a value. -/
def HasExtended (ρ : String → ℚ) (x : Expr) : Prop := x.extended? ρ = some (x.extendedValue ρ)

theorem hasExtended_of_eq {l : Extended} (h : x.extended? ρ = some l) : HasExtended ρ x ∧ x.extendedValue ρ = l := by
  have hvalue : x.extendedValue ρ = l := by rw [extendedValue, h, Option.getD_some]
  exact ⟨by rw [HasExtended, hvalue, h], hvalue⟩

theorem extendedAll?_eq_some {ls : List Extended} :
    extendedAll? ρ xs = some ls ↔ (∀ x ∈ xs, HasExtended ρ x) ∧ ls = xs.map (extendedValue ρ) := by
  induction xs generalizing ls with
  | nil => simp [extendedAll?, eq_comm]
  | cons x xs ih =>
    simp only [extendedAll?, Option.bind_eq_some_iff, Option.map_eq_some_iff, List.forall_mem_cons, List.map_cons]
    constructor
    · rintro ⟨l, hl, ks, hks, rfl⟩
      obtain ⟨hx, rfl⟩ := hasExtended_of_eq hl
      obtain ⟨hxs, rfl⟩ := ih.1 hks
      exact ⟨⟨hx, hxs⟩, rfl⟩
    · rintro ⟨⟨hx, hxs⟩, rfl⟩
      exact ⟨_, hx, _, ih.2 ⟨hxs, rfl⟩, rfl⟩

theorem extended?_add (h : ∀ t ∈ ts, HasExtended ρ t) : (add ts).extended? ρ = sum? (ts.map (extendedValue ρ)) := by
  rw [extended?, extendedAll?_eq_some.2 ⟨h, rfl⟩, Option.bind_some]

theorem HasExtended.terms (h : HasExtended ρ (add ts)) : ∀ t ∈ ts, HasExtended ρ t := by
  rw [HasExtended, extended?, Option.bind_eq_some_iff] at h
  obtain ⟨ls, hls, -⟩ := h
  exact (extendedAll?_eq_some.1 hls).1

/-! ## Terms -/

theorem flattenTerms_hasExtended (h : ∀ x ∈ xs, HasExtended ρ x) : ∀ t ∈ flattenTerms xs, HasExtended ρ t :=
  fun t ht => (flattenTerms_all HasExtended.terms h t ht).1

theorem sum?_flattenTerms (h : ∀ x ∈ xs, HasExtended ρ x) :
    sum? ((flattenTerms xs).map (extendedValue ρ)) = sum? (xs.map (extendedValue ρ)) := by
  fun_induction flattenTerms xs with
  | case1 => rfl
  | case2 ys xs ihy ihx =>
    obtain ⟨hys, hxs⟩ := List.forall_mem_cons.1 h
    have hsum : sum? (ys.map (extendedValue ρ)) = some ((add ys).extendedValue ρ) := by
      rw [← extended?_add hys.terms]
      exact hys
    rw [List.map_append, sum?_append ((ihy hys.terms).trans hsum), List.map_cons, sum?_cons, sum?_cons, ihx hxs]
  | case3 x xs _ ih =>
    rw [List.map_cons, List.map_cons, sum?_cons, sum?_cons, ih (List.forall_mem_cons.1 h).2]

theorem extended?_ofTerms (h : ∀ t ∈ ts, HasExtended ρ t) :
    (ofTerms ts).extended? ρ = sum? (ts.map (extendedValue ρ)) := by
  match ts with
  | [] => rfl
  | [t] =>
    rw [ofTerms, List.map_singleton, sum?_cons, sum?_nil, Option.bind_some, add?_number_zero]
    exact h t (List.mem_singleton_self t)
  | t :: u :: ts =>
    have hperm : (sortTerms (t :: u :: ts)).Perm (t :: u :: ts) := List.mergeSort_perm _ _
    rw [ofTerms, extended?_add fun x hx => h x (hperm.mem_iff.1 hx), sum?_perm (hperm.map _)]
    · simp
    · simp

theorem extended?_ofFactors (fs : List Expr) : (ofFactors fs).extended? ρ = (extendedAll? ρ fs).bind product? := by
  match fs with
  | [] => rfl
  | [f] =>
    cases h : f.extended? ρ <;> simp [ofFactors, extendedAll?, h]
  | f :: g :: fs => rfl

theorem extended?_scaled (c : ℚ) (fs : List Expr) :
    (mul (rat c :: fs)).extended? ρ = ((extendedAll? ρ fs).bind product?).bind (mul? (number c)) := by
  cases h : extendedAll? ρ fs <;> simp [extended?, extendedAll?, h]

/-- A coefficient multiplies the value of what stands behind it. -/
theorem extended?_withCoeff (c : ℚ) (r : Expr) : (withCoeff c r).extended? ρ = (r.extended? ρ).bind (mul? (number c)) := by
  unfold withCoeff
  split
  · rename_i hone
    cases r with
    | rat q =>
      obtain rfl : q = 1 := by simpa [isOne] using hone
      simp [extended?]
    | _ => cases hone
  · split
    · rename_i hc
      cases h : r.extended? ρ <;> simp [hc]
    · split
      · rw [extended?_scaled]
        rfl
      · rw [extended?_scaled, ← extended?_ofFactors]
        rfl

theorem extended?_splitCoeff (t : Expr) :
    t.extended? ρ = (t.splitCoeff.2.extended? ρ).bind (mul? (number t.splitCoeff.1)) := by
  unfold splitCoeff
  split
  · simp [one, extended?]
  · rw [extended?_scaled, ← extended?_ofFactors]
  · cases h : t.extended? ρ <;> simp

theorem HasExtended.split (h : HasExtended ρ t) : HasExtended ρ t.splitCoeff.2 ∧
    mul? (number t.splitCoeff.1) (t.splitCoeff.2.extendedValue ρ) = some (t.extendedValue ρ) := by
  rw [HasExtended, extended?_splitCoeff, Option.bind_eq_some_iff] at h
  obtain ⟨w, hw, hmul⟩ := h
  obtain ⟨hrest, rfl⟩ := hasExtended_of_eq hw
  exact ⟨hrest, hmul⟩

/-- A bare infinity has the value that its sign says. -/
theorem extended?_of_sign {s : ℤ} (hs : t.infinitySign? = some s) :
    t.extended? ρ = some (if 0 < s then posInf else negInf) := by
  unfold infinitySign? at hs
  split at hs
  · obtain rfl : 1 = s := by simpa using hs
    rfl
  · rename_i q
    rw [extended?_scaled, ← extended?_ofFactors]
    change mul? (number q) posInf = _
    rcases lt_trichotomy q 0 with hq | rfl | hq
    · obtain rfl : -1 = s := by simpa [hq] using hs
      simp [mul?, isInfinite, coeff, hq.ne, signed_of_neg hq]
    · simp at hs
    · obtain rfl : 1 = s := by simpa [hq, hq.le.not_gt] using hs
      simp [mul?, isInfinite, coeff, hq.ne', signed_of_pos hq]
  · cases hs

/-! ## Trees without infinities -/

mutual

/-- Trees without infinities have finite values. -/
theorem notInfinite : ∀ x : Expr, x.contains infinity = false → ∀ l, x.extended? ρ = some l → l.isInfinite = false
  | rat _, _, l, hl | var _, _, l, hl => by
    obtain rfl := Option.some.inj hl
    rfl
  | infinity, h, _, _ => by simp [contains, exist] at h
  | add ts, h, l, hl => by
    rw [extended?, Option.bind_eq_some_iff] at hl
    obtain ⟨ls, hls, hsum⟩ := hl
    rw [sum?_notInfinite (notInfiniteAll ts ((compositional_noInfinity.add ts).1 h) ls hls)] at hsum
    obtain rfl := Option.some.inj hsum
    rfl
  | mul fs, h, l, hl => by
    rw [extended?, Option.bind_eq_some_iff] at hl
    obtain ⟨ls, hls, hproduct⟩ := hl
    rw [product?_notInfinite (notInfiniteAll fs ((compositional_noInfinity.mul fs).1 h) ls hls)] at hproduct
    obtain rfl := Option.some.inj hproduct
    rfl
  | pow b (rat q), h, l, hl => by
    rw [extended?, Option.ite_none_right_eq_some, Option.bind_eq_some_iff] at hl
    obtain ⟨-, m, hm, hpower⟩ := hl
    exact power?_notInfinite (notInfinite b ((compositional_noInfinity.pow b _).1 h).1 m hm) hpower
  | pow _ pi, _, _, hl | pow _ e, _, _, hl | pow _ i, _, _, hl | pow _ infinity, _, _, hl | pow _ undefined, _, _, hl
  | pow _ (var _), _, _, hl | pow _ (add _), _, _, hl | pow _ (mul _), _, _, hl | pow _ (pow _ _), _, _, hl
  | pow _ (fn _ _), _, _, hl | pi, _, _, hl | e, _, _, hl | i, _, _, hl | undefined, _, _, hl | fn _ _, _, _, hl => by
    cases hl

theorem notInfiniteAll : ∀ xs : List Expr, (∀ x ∈ xs, x.contains infinity = false) → ∀ ls, extendedAll? ρ xs = some ls →
    ∀ l ∈ ls, l.isInfinite = false
  | [], _, ls, hls => by
    obtain rfl := Option.some.inj hls
    simp
  | x :: xs, h, ls, hls => by
    obtain ⟨hx, hxs⟩ := List.forall_mem_cons.1 h
    simp only [extendedAll?, Option.bind_eq_some_iff, Option.map_eq_some_iff] at hls
    obtain ⟨l, hl, ms, hms, rfl⟩ := hls
    exact List.forall_mem_cons.2 ⟨notInfinite x hx l hl, notInfiniteAll xs hxs ms hms⟩

end

/-! ## What is noted -/

/-- The terms that are rationals or bare infinities. -/
def notedTerms (ts : List Expr) : List Expr := ts.filter fun t => !(t.rat?.isNone && t.infinitySign?.isNone)

/-- What is noted of the rationals and the bare infinities tells their sum. -/
theorem notedTerms_parts (ts : List Expr) :
    ((notedTerms ts).map (extendedValue ρ)).any isPos = ts.any (·.infinitySign? = some 1) ∧
      ((notedTerms ts).map (extendedValue ρ)).any isNeg = ts.any (·.infinitySign? = some (-1)) ∧
      (((notedTerms ts).map (extendedValue ρ)).map summand).sum = (ts.filterMap rat?).sum := by
  induction ts with
  | nil => exact ⟨rfl, rfl, rfl⟩
  | cons t ts ih =>
    obtain ⟨hpos, hneg, hnumbers⟩ := ih
    cases hr : t.rat? with
    | some q =>
      obtain rfl := eq_rat_of_rat? hr
      have hnoted : notedTerms (rat q :: ts) = rat q :: notedTerms ts := rfl
      have hvalue : (rat q).extendedValue ρ = number q := rfl
      rw [hnoted, List.filterMap_cons_some hr]
      simp only [List.any_cons, List.map_cons, List.sum_cons, hpos, hneg, hnumbers, hvalue]
      exact ⟨rfl, rfl, rfl⟩
    | none =>
      rw [List.filterMap_cons_none hr]
      cases hs : t.infinitySign? with
      | none =>
        have hnoted : notedTerms (t :: ts) = notedTerms ts := by simp [notedTerms, hr, hs]
        rw [hnoted, hpos, hneg, hnumbers, List.any_cons, List.any_cons, hs]
        exact ⟨rfl, rfl, rfl⟩
      | some s =>
        have hnoted : notedTerms (t :: ts) = t :: notedTerms ts := by simp [notedTerms, hr, hs]
        have hvalue := (hasExtended_of_eq (extended?_of_sign (ρ := ρ) hs)).2
        rw [hnoted]
        simp only [List.any_cons, List.map_cons, List.sum_cons, hpos, hneg, hnumbers, hvalue, hs]
        obtain rfl | rfl : s = 1 ∨ s = -1 := by simpa [hs] using infinitySign?_cases t
        · simp [isPos, isNeg, summand]
        · simp [isPos, isNeg, summand]

theorem sum?_notedTerms (ts : List Expr) : sum? (ts.map (extendedValue ρ)) =
    sum? ((notedTerms ts).map (extendedValue ρ) ++ (plainTerms ts).map (extendedValue ρ)) := by
  have hperm : (plainTerms ts ++ notedTerms ts).Perm ts := List.filter_append_perm _ ts
  rw [← List.map_append]
  exact sum?_perm ((hperm.symm.trans List.perm_append_comm).map _)

/-! ## What is collected -/

/-- The terms that are neither rationals nor bare infinities, collected by what their coefficients multiply. -/
def collected (ts : List Expr) : List (Expr × ℚ) := (ts.foldl TermGroups.insert .empty).groups

/-- What is additive in the coefficients adds up over the collected terms as over the terms. -/
theorem sum_map_collected {f : Expr → ℚ → ℚ} (hf : ∀ x c d, f x (c + d) = f x c + f x d) (ts : List Expr) :
    ((collected ts).map fun p => f p.1 p.2).sum = ((plainTerms ts).map fun t => f t.splitCoeff.2 t.splitCoeff.1).sum := by
  have hfold (us : List Expr) (gs : List (Expr × ℚ)) :
      ((us.foldl (fun gs t => collectTerm t.splitCoeff.2 t.splitCoeff.1 gs) gs).map fun p => f p.1 p.2).sum =
        (gs.map fun p => f p.1 p.2).sum + (us.map fun t => f t.splitCoeff.2 t.splitCoeff.1).sum := by
    induction us generalizing gs with
    | nil => simp
    | cons u us ih =>
      rw [List.foldl_cons, ih, sum_map_collectTerm hf, List.map_cons, List.sum_cons, add_assoc]
  rw [collected, TermGroups.insertAll_parts, hfold]
  simp [TermGroups.empty]

theorem collected_nodup (ts : List Expr) : ((collected ts).map Prod.fst).Nodup :=
  TermGroups.nodup_insertAll ts (by simp [TermGroups.empty])

theorem collected_hasExtended (h : ∀ t ∈ ts, HasExtended ρ t) : ∀ p ∈ collected ts, HasExtended ρ p.1 :=
  TermGroups.rests_insertAll (fun t ht _ _ => (h t ht).split.1) (by simp [TermGroups.empty])

/-- A collected term that does not cancel has the multiple of the value of its rest. -/
theorem hasExtended_withCoeff {r : Expr} (h : HasExtended ρ r) {c : ℚ} (hc : c ≠ 0) : HasExtended ρ (withCoeff c r) ∧
    mul? (number c) (r.extendedValue ρ) = some ((withCoeff c r).extendedValue ρ) := by
  obtain ⟨v, hv⟩ := number_mul?_isSome hc (r.extendedValue ρ)
  have hvalue : (withCoeff c r).extended? ρ = some v := by rw [extended?_withCoeff, h, Option.bind_some, hv]
  obtain ⟨hterm, rfl⟩ := hasExtended_of_eq hvalue
  exact ⟨hterm, hv⟩

theorem keptTerms_hasExtended (h : ∀ t ∈ ts, HasExtended ρ t) : ∀ u ∈ keptTerms (collected ts), HasExtended ρ u := by
  intro u hu
  obtain ⟨p, hp, hc, rfl⟩ := mem_keptTerms.1 hu
  exact (hasExtended_withCoeff (collected_hasExtended h p hp) hc).1

/-- Finite values add up to the same. -/
theorem summands_keptTerms (h : ∀ t ∈ ts, HasExtended ρ t) :
    ((keptTerms (collected ts)).map fun t => (t.extendedValue ρ).summand).sum =
      ((plainTerms ts).map fun t => (t.extendedValue ρ).summand).sum := by
  have hkept : ∀ gs : List (Expr × ℚ), (∀ p ∈ gs, HasExtended ρ p.1) →
      ((keptTerms gs).map fun t => (t.extendedValue ρ).summand).sum =
        (gs.map fun p => p.2 * (p.1.extendedValue ρ).summand).sum := by
    intro gs hgs
    induction gs with
    | nil => rfl
    | cons p gs ih =>
      obtain ⟨hp, hgs⟩ := List.forall_mem_cons.1 hgs
      rw [keptTerms_cons, List.map_cons, List.sum_cons, ← ih hgs]
      split
      · rename_i hc
        rw [hc, zero_mul, zero_add]
      · rename_i hc
        rw [List.map_cons, List.sum_cons, summand_of_mul? (hasExtended_withCoeff hp hc).2]
  rw [hkept _ (collected_hasExtended h),
    sum_map_collected (f := fun r c => c * (r.extendedValue ρ).summand) fun _ _ _ => add_mul _ _ _]
  congr 1
  exact List.map_congr_left fun t ht => (summand_of_mul? (h t (mem_plainTerms.1 ht).1).split.2).symm

/-! ## Infinite terms -/

/-- Two terms that differ in their coefficient only are infinite with different signs. -/
def Clash (ρ : String → ℚ) (ts : List Expr) : Prop :=
  ∃ t ∈ plainTerms ts, ∃ u ∈ plainTerms ts, t.splitCoeff.2 = u.splitCoeff.2 ∧
    t.extended? ρ = some posInf ∧ u.extended? ρ = some negInf

/-- The collected coefficient of a rest adds up the coefficients of its terms. -/
theorem collected_weight (r : Expr) (ε σ : ℚ) : ε * (coefficientOf r (collected ts) * σ) =
    ((plainTerms ts).map fun t => ε * ((if t.splitCoeff.2 = r then t.splitCoeff.1 else 0) * σ)).sum := by
  have hadd (x : Expr) (c d : ℚ) : (if x = r then c + d else 0) = (if x = r then c else 0) + if x = r then d else 0 := by
    split <;> simp
  have hcoefficients := sum_map_collected (f := fun x c => if x = r then c else 0) hadd ts
  rw [coefficientOf, hcoefficients, List.sum_map_mul_left, List.sum_map_mul_right]

theorem coefficientOf_collected {p : Expr × ℚ} (hp : p ∈ collected ts) : coefficientOf p.1 (collected ts) = p.2 :=
  coefficientOf_of_mem (collected_nodup ts) hp

section Signs

variable (h : ∀ t ∈ ts, HasExtended ρ t)

include h

/-- A collected term is infinite only as one of its terms is. -/
theorem exists_plainTerm {ε : ℚ} (hε : ε = 1 ∨ ε = -1) {u : Expr} (hu : u ∈ keptTerms (collected ts)) (hvalue : u.extendedValue ρ = signed ε) :
    ∃ t ∈ plainTerms ts, t.extendedValue ρ = signed ε := by
  obtain ⟨p, hp, hc, rfl⟩ := mem_keptTerms.1 hu
  obtain ⟨hinf, hpositive⟩ := (eq_signed_iff hε (hasExtended_withCoeff (collected_hasExtended h p hp) hc).2).1 hvalue
  rw [← coefficientOf_collected hp, collected_weight] at hpositive
  obtain ⟨t, ht, hpositive⟩ : ∃ t ∈ plainTerms ts,
      0 < ε * ((if t.splitCoeff.2 = p.1 then t.splitCoeff.1 else 0) * (p.1.extendedValue ρ).coeff) :=
    List.exists_lt_of_sum_lt (fun _ => 0) _ (by simpa using hpositive)
  split at hpositive
  · rename_i hrest
    rw [← hrest] at hinf hpositive
    exact ⟨t, ht, (eq_signed_iff hε (h t (mem_plainTerms.1 ht).1).split.2).2 ⟨hinf, hpositive⟩⟩
  · simp at hpositive

/-- Without clashes the coefficients of an infinite rest have one sign, and do not cancel. -/
theorem exists_keptTerm {ε : ℚ} (hε : ε = 1 ∨ ε = -1) (hclash : ¬ Clash ρ ts) {t : Expr} (ht : t ∈ plainTerms ts)
    (hvalue : t.extendedValue ρ = signed ε) : ∃ u ∈ keptTerms (collected ts), u.extendedValue ρ = signed ε := by
  have hmem (u : Expr) (hu : u ∈ plainTerms ts) : HasExtended ρ u := h u (mem_plainTerms.1 hu).1
  obtain ⟨hinf, hpositive⟩ := (eq_signed_iff hε (hmem t ht).split.2).1 hvalue
  have hnonneg : ∀ u ∈ plainTerms ts, 0 ≤ ε * ((if u.splitCoeff.2 = t.splitCoeff.2 then u.splitCoeff.1 else 0) *
      (t.splitCoeff.2.extendedValue ρ).coeff) := by
    intro u hu
    split
    · -- a coefficient that counts against that of `t` makes a clash
      rename_i hrest
      by_contra hneg
      have hopposite : u.extendedValue ρ = signed (-ε) := by
        refine (eq_signed_iff (hε.symm.imp neg_eq_iff_eq_neg.2 (congrArg _)) (hmem u hu).split.2).2 ⟨hrest ▸ hinf, ?_⟩
        rw [hrest]
        linarith
      refine hclash ?_
      rcases hε with rfl | rfl
      · refine ⟨t, ht, u, hu, hrest.symm, ?_, ?_⟩
        · rw [hmem t ht, hvalue, signed_of_pos one_pos]
        · rw [hmem u hu, hopposite, signed_of_neg neg_one_lt_zero]
      · refine ⟨u, hu, t, ht, hrest, ?_, ?_⟩
        · rw [hmem u hu, hopposite, neg_neg, signed_of_pos one_pos]
        · rw [hmem t ht, hvalue, signed_of_neg neg_one_lt_zero]
    · simp
  have hweight : 0 < ε * (coefficientOf t.splitCoeff.2 (collected ts) * (t.splitCoeff.2.extendedValue ρ).coeff) := by
    rw [collected_weight]
    refine lt_of_lt_of_le ?_ (List.single_le_sum (fun q hq => ?_) _ (List.mem_map_of_mem ht))
    · rw [if_pos rfl]
      exact hpositive
    · obtain ⟨u, hu, rfl⟩ := List.mem_map.1 hq
      exact hnonneg u hu
  have hne : coefficientOf t.splitCoeff.2 (collected ts) ≠ 0 := by
    intro hzero
    simp [hzero] at hweight
  obtain ⟨p, hp, hrest⟩ := List.mem_map.1 (not_imp_comm.1 coefficientOf_eq_zero hne)
  rw [← hrest, coefficientOf_collected hp] at hne hweight
  refine ⟨_, mem_keptTerms.2 ⟨p, hp, hne, rfl⟩, ?_⟩
  exact (eq_signed_iff hε (hasExtended_withCoeff (collected_hasExtended h p hp) hne).2).2 ⟨hrest ▸ hinf, hweight⟩

/-- Without clashes what is collected has the sum of the terms. -/
theorem sum?_keptTerms (hclash : ¬ Clash ρ ts) :
    sum? ((notedTerms ts).map (extendedValue ρ) ++ (keptTerms (collected ts)).map (extendedValue ρ)) =
      sum? (ts.map (extendedValue ρ)) := by
  have hsign {test : Extended → Bool} {ε : ℚ} (hε : ε = 1 ∨ ε = -1) (htest : ∀ l, test l = true ↔ l = signed ε) :
      ((keptTerms (collected ts)).map (extendedValue ρ)).any test = ((plainTerms ts).map (extendedValue ρ)).any test := by
    rw [Bool.eq_iff_iff]
    simp only [List.any_eq_true, List.mem_map, exists_exists_and_eq_and, htest]
    exact ⟨fun ⟨u, hu, hvalue⟩ => exists_plainTerm h hε hu hvalue,
      fun ⟨t, ht, hvalue⟩ => exists_keptTerm h hε hclash ht hvalue⟩
  have hpos (l : Extended) : l.isPos = true ↔ l = signed 1 := by
    rw [signed_of_pos one_pos]
    cases l <;> simp [isPos]
  have hneg (l : Extended) : l.isNeg = true ↔ l = signed (-1) := by
    rw [signed_of_neg neg_one_lt_zero]
    cases l <;> simp [isNeg]
  rw [sum?_notedTerms ts]
  refine sum?_congr ?_ ?_ ?_
  · rw [List.any_append, List.any_append, hsign (.inl rfl) hpos]
  · rw [List.any_append, List.any_append, hsign (.inr rfl) hneg]
  · have hfinite := summands_keptTerms h
    simp only [List.map_append, List.sum_append, List.map_map] at hfinite ⊢
    exact congrArg _ hfinite

end Signs

/-! ## The sum -/

namespace TermGroups

/-- The rational part and the infinities. -/
def noted (g : TermGroups) : List Extended :=
  number g.constant :: ((if g.hasPosInfinity then [posInf] else []) ++ if g.hasNegInfinity then [negInf] else [])

/-- An infinity absorbs the rational part, and the other terms too if they are finite constants. -/
theorem extended?_infinite {us : List Expr} (hus : ∀ u ∈ us, HasExtended ρ u) {inf : Expr} {l : Extended}
    (hinf : inf.extended? ρ = some l) (hl : l.isInfinite = true) (c : ℚ) :
    (if us.all fun t => t.isConstant && t.isFinite then inf else ofTerms (us ++ [inf])).extended? ρ =
      sum? (number c :: l :: us.map (extendedValue ρ)) := by
  obtain ⟨hterm, hvalue⟩ := hasExtended_of_eq hinf
  rw [sum?_absorb hl]
  split
  · rename_i hall
    have hfinite : ∀ m ∈ us.map (extendedValue ρ), m.isInfinite = false := by
      intro m hm
      obtain ⟨u, hu, rfl⟩ := List.mem_map.1 hm
      have htest := List.all_eq_true.1 hall u hu
      rw [Bool.and_eq_true] at htest
      exact notInfinite u (noInfinity_of_isFinite htest.2) _ (hus u hu)
    rw [hinf, sum?_cons, sum?_notInfinite hfinite, Option.bind_some, (add?_notInfinite hl rfl).1]
  · rw [extended?_ofTerms (List.forall_mem_append.2 ⟨hus, by simpa using hterm⟩), List.map_append, List.map_singleton, hvalue]
    exact sum?_perm List.perm_append_comm

theorem noted_parts (g : TermGroups) : g.noted.any isPos = g.hasPosInfinity ∧ g.noted.any isNeg = g.hasNegInfinity ∧
    (g.noted.map summand).sum = g.constant := by
  obtain ⟨c, pos, neg, gs⟩ := g
  cases pos <;> cases neg <;> simp [noted, isPos, isNeg, summand]

theorem extended?_total {g : TermGroups} (hkept : ∀ u ∈ keptTerms g.groups, HasExtended ρ u) :
    g.total.extended? ρ = sum? (g.noted ++ (keptTerms g.groups).map (extendedValue ρ)) := by
  obtain ⟨c, pos, neg, gs⟩ := g
  cases pos <;> cases neg
  · -- no infinity
    change (if c ≠ 0 then ofTerms (keptTerms gs ++ [rat c]) else ofTerms (keptTerms gs)).extended? ρ =
      sum? (number c :: (keptTerms gs).map (extendedValue ρ))
    split
    · have hrat : HasExtended ρ (rat c) := rfl
      rw [extended?_ofTerms (List.forall_mem_append.2 ⟨hkept, by simpa using hrat⟩), List.map_append]
      exact sum?_perm List.perm_append_comm
    · rename_i hc
      rw [extended?_ofTerms hkept, not_not.1 hc, sum?_cons]
      cases sum? ((keptTerms gs).map (extendedValue ρ)) <;> simp
  · exact extended?_infinite hkept (extended?_of_sign (t := negInfinity) (s := -1) (by simp [negInfinity, Expr.infinitySign?]))
      rfl c
  · exact extended?_infinite hkept rfl rfl c
  · -- infinities of both signs
    rw [sum?_eq]
    simp [total, noted, extended?, isPos, isNeg]

end TermGroups

/-- What is noted of the terms sums up like the noted terms. -/
theorem sum?_noted (ρ : String → ℚ) (ts : List Expr) (ms : List Extended) :
    sum? ((ts.foldl TermGroups.insert .empty).noted ++ ms) = sum? ((notedTerms ts).map (extendedValue ρ) ++ ms) := by
  obtain ⟨hpos, hneg, hnumbers⟩ := notedTerms_parts (ρ := ρ) ts
  obtain ⟨hgpos, hgneg, hgnumbers⟩ := (ts.foldl TermGroups.insert .empty).noted_parts
  have hparts := TermGroups.insertAll_parts ts .empty
  refine sum?_congr ?_ ?_ ?_
  · rw [List.any_append, List.any_append, hgpos, hpos, hparts]
    rfl
  · rw [List.any_append, List.any_append, hgneg, hneg, hparts]
    rfl
  · rw [List.map_append, List.map_append, List.sum_append, List.sum_append, hgnumbers, hnumbers, hparts]
    simp [TermGroups.empty]

/-- The canonical sum has the sum of the noted and the collected terms. -/
theorem extended?_sum_collected (h : ∀ x ∈ xs, HasExtended ρ x) : (sum xs).extended? ρ =
    sum? ((notedTerms (flattenTerms xs)).map (extendedValue ρ) ++
      (keptTerms (collected (flattenTerms xs))).map (extendedValue ρ)) := by
  have hflat := flattenTerms_hasExtended h
  have hdefined : ∀ t ∈ flattenTerms xs, t ≠ undefined := by
    rintro t ht rfl
    cases hflat _ ht
  rw [sum_eq_total hdefined, TermGroups.extended?_total (keptTerms_hasExtended hflat), sum?_noted ρ]
  rfl

/-- Where every operand has a value, the canonical sum has the sum of the values, and no value if they have no sum,
unless two terms that differ in their coefficient only are infinite with different signs. -/
theorem extended?_sum {ls : List Extended} (h : extendedAll? ρ xs = some ls) :
    (∀ l, sum? ls = some l → (sum xs).extended? ρ = some l) ∧
      (sum? ls = none → (sum xs).extended? ρ = none ∨ Clash ρ (flattenTerms xs)) := by
  obtain ⟨hxs, rfl⟩ := extendedAll?_eq_some.1 h
  have hflat := flattenTerms_hasExtended hxs
  rw [← sum?_flattenTerms hxs]
  by_cases hclash : Clash ρ (flattenTerms xs)
  · obtain ⟨t, ht, u, hu, -, hpos, hneg⟩ := id hclash
    have hinfinities : ((flattenTerms xs).map (extendedValue ρ)).any isPos = true ∧
        ((flattenTerms xs).map (extendedValue ρ)).any isNeg = true := by
      simp only [List.any_eq_true, List.mem_map, exists_exists_and_eq_and]
      refine ⟨⟨t, (mem_plainTerms.1 ht).1, ?_⟩, ⟨u, (mem_plainTerms.1 hu).1, ?_⟩⟩
      · rw [(hasExtended_of_eq hpos).2, isPos]
      · rw [(hasExtended_of_eq hneg).2, isNeg]
    refine ⟨fun l hl => ?_, fun _ => .inr hclash⟩
    rw [sum?_eq, hinfinities.1, hinfinities.2] at hl
    cases hl
  · rw [extended?_sum_collected hxs, sum?_keptTerms hflat hclash]
    exact ⟨fun l hl => hl, .inl⟩

/-- At one, `x * oo` absorbs `y`. -/
theorem extended?_sum_absorbs :
    extendedAll? (fun _ => 1) [mul [var "x", infinity], var "y"] = some [posInf, number 1] ∧
      (sum [mul [var "x", infinity], var "y"]).extended? (fun _ => 1) = some posInf := by
  have h : extendedAll? (fun _ => 1) [mul [var "x", infinity], var "y"] = some [posInf, number 1] := by
    simp [extendedAll?, extended?, mul?, isInfinite, coeff, signed]
  exact ⟨h, (extended?_sum h).1 posInf rfl⟩

/-- `x * oo` and its negative cancel, though at one they have no sum. -/
theorem extended?_sum_cancelled :
    product [var "x", infinity] = mul [var "x", infinity] ∧
      product [rat (-1), var "x", infinity] = mul [rat (-1), var "x", infinity] ∧
      extendedAll? (fun _ => 1) [mul [var "x", infinity], mul [rat (-1), var "x", infinity]] = some [posInf, negInf] ∧
      sum? [posInf, negInf] = none ∧
      sum [mul [var "x", infinity], mul [rat (-1), var "x", infinity]] = rat 0 := by
  refine ⟨by cbv, by cbv, ?_, rfl, by cbv⟩
  simp [extendedAll?, extended?, mul?, isInfinite, coeff, signed]

end SymbolicSolver.Expr
