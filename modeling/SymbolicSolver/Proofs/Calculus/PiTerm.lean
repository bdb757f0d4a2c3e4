import SymbolicSolver.Proofs.Polynomial.Terms

/-!
# Values with `π`

`π` has no exact value, but it may be read as an indeterminate: an equation that holds whatever rational stands in its
place holds of polynomials in `π`. The expressions here have a single term with `π` beside rational ones. Sums and
rational multiples keep the terms of such an expression apart, since no two differ in their coefficient only, and so
they act on the values term by term.
-/

namespace SymbolicSolver.Expr

variable {x w t : Expr} {ts : List Expr} {ρ : String → Rat}

/-! ## A rational in the place of `π` -/

mutual

/-- Puts a rational in the place of `π`. -/
def atPi (p : Rat) : Expr → Expr
  | pi => rat p
  | add ts => add (atPiAll p ts)
  | mul fs => mul (atPiAll p fs)
  | pow b x => pow (atPi p b) (atPi p x)
  | fn f x => fn f (atPi p x)
  | x => x

/-- Puts a rational in the place of `π` in every expression of a list. -/
def atPiAll (p : Rat) : List Expr → List Expr
  | [] => []
  | x :: xs => atPi p x :: atPiAll p xs

end

theorem atPiAll_eq_map (p : Rat) (xs : List Expr) : atPiAll p xs = xs.map (atPi p) := by
  induction xs with
  | nil => rfl
  | cons x xs ih => rw [atPiAll, ih, List.map_cons]

/-- What has an exact value does not contain `π`. -/
theorem atPi_of_definedAt (p : Rat) : ∀ x : Expr, DefinedAt ρ x → x.atPi p = x
  | rat _, _ | var _, _ => rfl
  | add ts, h => by
    have hts : ts.map (atPi p) = ts.map id :=
      List.map_congr_left fun t ht => atPi_of_definedAt p t ((defined_add ts).1 h t ht)
    rw [atPi, atPiAll_eq_map, hts, List.map_id]
  | mul fs, h => by
    have hfs : fs.map (atPi p) = fs.map id :=
      List.map_congr_left fun f hf => atPi_of_definedAt p f ((defined_mul fs).1 h f hf)
    rw [atPi, atPiAll_eq_map, hfs, List.map_id]
  | fn f x, h => by simp [Defined, Reading.ofVars] at h
  | pow b x, h => by
    obtain ⟨n, rfl⟩ := h.exponent
    rw [atPi, atPi_of_definedAt p b ((defined_pow b n).1 h).1]
    rfl
  | pi, h | e, h | i, h | infinity, h | undefined, h => h.elim

/-- An expression has a value once a rational is put in the place of `π`. -/
def HasValueAt (ρ : String → Rat) (p : Rat) (x : Expr) (v : Rat) : Prop :=
  DefinedAt ρ (x.atPi p) ∧ valueAt ρ (x.atPi p) = v

theorem hasValueAt_of_definedAt (p : Rat) (h : DefinedAt ρ x) : HasValueAt ρ p x (valueAt ρ x) := by
  rw [HasValueAt, atPi_of_definedAt p x h]
  exact ⟨h, rfl⟩

/-- A sum has the sum of the values of its terms. -/
theorem hasValueAt_ofTerms {p : Rat} {v : Expr → Rat} (h : ∀ t ∈ ts, HasValueAt ρ p t (v t)) :
    HasValueAt ρ p (ofTerms ts) (ts.map v).sum := by
  have hshape : (ofTerms ts).atPi p = ofTerms (ts.map (atPi p)) ∨
      (ofTerms ts).atPi p = add ((sortTerms ts).map (atPi p)) := by
    match ts with
    | [] | [t] => exact .inl rfl
    | t :: u :: ts => exact .inr (by rw [ofTerms_of_length (by simp), atPi, atPiAll_eq_map])
  have hsum : (ts.map fun t => valueAt ρ (t.atPi p)).sum = (ts.map v).sum :=
    congrArg List.sum (List.map_congr_left fun t ht => (h t ht).2)
  have hperm := List.mergeSort_perm ts fun a b => (compareTerms a b).isLE
  rw [HasValueAt]
  rcases hshape with heq | heq
  · rw [heq]
    refine ⟨(defined_ofTerms _).2 (by simpa using fun t ht => (h t ht).1), (eval_ofTerms _).trans ?_⟩
    rw [List.map_map]
    exact hsum
  · rw [heq]
    refine ⟨(defined_add _).2 (by simpa [sortTerms] using fun t ht => (h t ht).1), (eval_add _).trans ?_⟩
    rw [List.map_map]
    exact ((hperm.map _).sum_eq).trans hsum

/-! ## Terms kept apart -/

/-- Canonical terms other than zero that differ in more than their coefficient. -/
structure DistinctTerms (ts : List Expr) : Prop where
  canonical : ∀ t ∈ ts, Canonical t
  notSum : ∀ t ∈ ts, t.isSum = false
  notZero : ∀ t ∈ ts, t.isZero = false
  rests : (ts.map fun t => t.splitCoeff.2).Nodup

theorem DistinctTerms.nil : DistinctTerms [] := ⟨by simp, by simp, by simp, by simp⟩

theorem DistinctTerms.perm (h : DistinctTerms ts) {us : List Expr} (hp : us.Perm ts) : DistinctTerms us :=
  ⟨fun t ht => h.canonical t (hp.mem_iff.1 ht), fun t ht => h.notSum t (hp.mem_iff.1 ht),
    fun t ht => h.notZero t (hp.mem_iff.1 ht), (hp.map _).nodup_iff.2 h.rests⟩

theorem DistinctTerms.tail (h : DistinctTerms (w :: ts)) : DistinctTerms ts :=
  ⟨fun t ht => h.canonical t (.tail _ ht), fun t ht => h.notSum t (.tail _ ht),
    fun t ht => h.notZero t (.tail _ ht), (List.nodup_cons.1 h.rests).2⟩

/-- A canonical expression has such terms; zero has none. -/
theorem Canonical.distinctTerms (hx : Canonical x) : ∃ ts, DistinctTerms ts ∧ x = ofTerms ts := by
  by_cases hz : x.isZero = true
  · exact ⟨[], .nil, by rw [eq_zero_of_isZero hz]; rfl⟩
  have hz := Bool.eq_false_of_not_eq_true hz
  rcases hx.terms_cases with ⟨ts, rfl, hts, hrow, hlen⟩ | ⟨-, hs⟩
  · exact ⟨ts, ⟨hts, hrow.notSum, hrow.notZero, hrow.rests⟩,
      by rw [ofTerms_of_length hlen, sortTerms_of_sorted hrow.sorted]⟩
  · exact ⟨[x], ⟨by simpa using hx, by simpa using hs, by simpa using hz, by simp⟩, rfl⟩

/-- One more term makes the sum with all terms. -/
theorem DistinctTerms.sum_cons (h : DistinctTerms (w :: ts)) :
    ∃ us, us.Perm (w :: ts) ∧ sum [w, ofTerms ts] = ofTerms us := by
  have hall := sum_of_terms h.canonical h.notSum h.notZero h.rests
  match ts with
  | [] =>
    have hw : Canonical w := h.canonical w List.mem_cons_self
    refine ⟨[w], .refl _, ?_⟩
    have hflat : flattenTerms [w, zero] = flattenTerms [w] ++ [zero] := by
      cases w <;> simp [flattenTerms, zero]
    have hinsert (g : TermGroups) : g.insert zero = g := by simp [TermGroups.insert, zero]
    have hsum : sum [w, zero] = sum [w] := by
      rw [sum_of_canonical (by simpa using ⟨hw, .rat 0⟩), sum_of_canonical (by simpa using hw), hflat,
        List.foldl_append, List.foldl_cons, List.foldl_nil, hinsert]
    exact hsum.trans (sum_singleton hw (h.notSum w List.mem_cons_self) (h.notZero w List.mem_cons_self))
  | [t] => exact hall
  | t :: u :: ts =>
    have hrow : (w :: sortTerms (t :: u :: ts)).Perm (w :: t :: u :: ts) := (sortTerms_perm _).cons _
    have hsorted := h.perm hrow
    have hsum : sum [w, add (sortTerms (t :: u :: ts))] = sum (w :: sortTerms (t :: u :: ts)) := by
      have hcanon : Canonical (ofTerms (t :: u :: ts)) :=
        canonical_ofTerms h.tail.canonical h.tail.notSum h.tail.notZero h.tail.rests
      have hflat : flattenTerms [w, add (sortTerms (t :: u :: ts))] = w :: sortTerms (t :: u :: ts) := by
        rw [← flattenTerms_of_notSum hsorted.notSum]
        have hw := hsorted.notSum w List.mem_cons_self
        cases w <;> simp_all [flattenTerms, isSum]
      rw [sum_of_canonical (by simpa using ⟨h.canonical w List.mem_cons_self, hcanon⟩),
        sum_of_canonical hsorted.canonical, hflat, flattenTerms_of_notSum hsorted.notSum]
    obtain ⟨us, hus, heq⟩ := sum_of_terms hsorted.canonical hsorted.notSum hsorted.notZero hsorted.rests
    exact ⟨us, hus.trans hrow, hsum.trans heq⟩

/-! ## Rational multiples -/

/-- A term with its coefficient multiplied. -/
def scale (c : Rat) (t : Expr) : Expr := withCoeff (c * t.splitCoeff.1) t.splitCoeff.2

theorem scale_times (c q : Rat) {fs : List Expr} (h : Monomial fs) : scale c (times q fs) = times (c * q) fs := by
  rw [scale, h.splitCoeff_times, h.withCoeff_times]

/-- A rational times a term. -/
theorem productWithin_scale (k : Nat) {c : Rat} (hc : c ≠ 0) (ht : Canonical t) (hs : t.isSum = false)
    (hz : t.isZero = false) : productWithin (k + 2) [rat c, t] = scale c t := by
  obtain ⟨q, fs, rfl, hfs, hq⟩ := ht.monomial hs
  obtain ⟨cs, hflat, hprod⟩ := flattenFactors_times c q hfs
  have hne : cs.prod ≠ 0 := hprod ▸ mul_ne_zero hc (hq hz)
  rw [productWithin_row k hflat hfs.canonical hfs.row hne (.inr hfs.notLone), hprod, scale_times c q hfs]

theorem scale_one (ht : Canonical t) (hs : t.isSum = false) : scale 1 t = t := by
  obtain ⟨q, fs, rfl, hfs, -⟩ := ht.monomial hs
  rw [scale_times 1 q hfs, one_mul]

theorem DistinctTerms.scale {c : Rat} (hc : c ≠ 0) (h : DistinctTerms ts) : DistinctTerms (ts.map (Expr.scale c)) := by
  have hterm : ∀ t ∈ ts, Canonical (Expr.scale c t) ∧ (Expr.scale c t).isSum = false ∧
      (Expr.scale c t).isZero = false ∧ (Expr.scale c t).splitCoeff.2 = t.splitCoeff.2 := by
    intro t ht
    obtain ⟨q, fs, rfl, hfs, hq⟩ := (h.canonical t ht).monomial (h.notSum t ht)
    have hne := mul_ne_zero hc (hq (h.notZero _ ht))
    rw [scale_times c q hfs, hfs.splitCoeff_times, hfs.splitCoeff_times]
    exact ⟨hfs.canonical_times hne, times_notSum hfs _, isZero_times hne hfs, rfl⟩
  have hrests : (ts.map (Expr.scale c)).map (fun t => t.splitCoeff.2) = ts.map fun t => t.splitCoeff.2 := by
    rw [List.map_map]
    exact List.map_congr_left fun t ht => (hterm t ht).2.2.2
  refine ⟨?_, ?_, ?_, hrests ▸ h.rests⟩
  · simpa using fun t ht => (hterm t ht).1
  · simpa using fun t ht => (hterm t ht).2.1
  · simpa using fun t ht => (hterm t ht).2.2.1

/-- A rational spreads over the terms. -/
theorem DistinctTerms.product_rat {c : Rat} (hc : c ≠ 0) (h : DistinctTerms ts) :
    ∃ us, us.Perm (ts.map (Expr.scale c)) ∧ product [rat c, ofTerms ts] = ofTerms us := by
  obtain ⟨k, hk⟩ := roundsFor_eq (sizeAll [rat c, ofTerms ts])
  rw [product, hk]
  obtain _ | ⟨t, _ | ⟨u, ts⟩⟩ := ts
  · refine ⟨[], .refl _, ?_⟩
    rw [ofTerms, zero, productWithin_rat_rat, mul_zero]
  · exact ⟨[Expr.scale c t], .refl _, productWithin_scale (k + 2) hc (h.canonical t List.mem_cons_self)
      (h.notSum t List.mem_cons_self) (h.notZero t List.mem_cons_self)⟩
  · have hrow := sortTerms_perm (t :: u :: ts)
    have hsorted := h.perm hrow
    have hcanon := canonical_ofTerms h.canonical h.notSum h.notZero h.rests
    rw [ofTerms_of_length (by simp)] at hcanon ⊢
    have hflat : flattenFactors [rat c, add (sortTerms (t :: u :: ts))] =
        [c].map rat ++ [add (sortTerms (t :: u :: ts))] := by simp [flattenFactors]
    rw [productWithin_collected (k + 2) hflat (by simpa using hcanon) (factorRow_sum _), List.prod_singleton,
      multiplyOut, if_neg hc, any_isProduct_eq_false (factorRow_sum _).notProduct, if_neg Bool.false_ne_true,
      if_neg Bool.false_ne_true]
    dsimp only
    split
    · rename_i hc1
      have hone : (t :: u :: ts).map (Expr.scale c) = (t :: u :: ts).map id :=
        List.map_congr_left fun s hs => by rw [hc1, scale_one (h.canonical s hs) (h.notSum s hs), id]
      exact ⟨t :: u :: ts, by rw [hone, List.map_id], by rw [ofTerms_of_length (by simp)]⟩
    · have hmap : (sortTerms (t :: u :: ts)).map (fun s => productWithin (k + 3) [rat c, s]) =
          (sortTerms (t :: u :: ts)).map (Expr.scale c) :=
        List.map_congr_left fun s hs => productWithin_scale (k + 1) hc (hsorted.canonical s hs) (hsorted.notSum s hs)
          (hsorted.notZero s hs)
      have hscaled := hsorted.scale hc
      obtain ⟨us, hus, heq⟩ := sum_of_terms hscaled.canonical hscaled.notSum hscaled.notZero hscaled.rests
      exact ⟨us, hus.trans (hrow.map _), by rw [hmap, heq]⟩

/-! ## Powers of `π` -/

theorem monomial_pi_power {n : Nat} (hn : 2 ≤ n) : Monomial [pow pi (rat n)] := by
  have hbase : PowerBase pi := ⟨rfl, by simp, rfl, rfl⟩
  have hpow : Canonical (pow pi (rat ((n : Int) : Rat))) := .power .pi hbase (by omega) (by omega) (by simp)
  exact ⟨by simpa using hpow, ⟨by simp [rat?], by simp [isProduct], by simp, List.pairwise_singleton _ _⟩, by simp⟩

theorem hasValueAt_pi_power (q p : Rat) (n : Nat) : HasValueAt ρ p (times q [pow pi (rat n)]) (q * p ^ n) := by
  by_cases hq : q = 1
  · subst hq
    rw [times_one_singleton]
    simp [HasValueAt, atPi]
  · rw [times_of_ne_one hq (by simp)]
    simp [HasValueAt, atPi, atPiAll]

/-- A rational multiple of a power of `π`, less an expression with an exact value. -/
theorem hasValueAt_pi_power_sub {q : Rat} (hq : q ≠ 0) {n : Nat} (hn : 2 ≤ n) (hx : Built x) (hd : DefinedAt ρ x)
    (c p : Rat) :
    HasValueAt ρ p (rat c * (times q [pow pi (rat n)] - x)) (c * (q * p ^ n - valueAt ρ x)) := by
  have hpi := monomial_pi_power hn
  obtain ⟨hdneg, hvneg⟩ := product_valueAt (show ∀ y ∈ [rat (-1), x], DefinedAt ρ y by simpa using hd)
  have hneg := (Postfix.built_negate hx).canonical.resolve_left hdneg.ne_undefined
  obtain ⟨ts, hts, hnegeq⟩ := hneg.distinctTerms
  have hdefined : ∀ t ∈ ts, DefinedAt ρ t := by
    have h : DefinedAt ρ (ofTerms ts) := hnegeq ▸ hdneg
    exact (defined_ofTerms ts).1 h
  -- The term with `π` differs from the others, which have exact values.
  have hrow : DistinctTerms (times q [pow pi (rat n)] :: ts) := by
    refine ⟨List.forall_mem_cons.2 ⟨hpi.canonical_times hq, hts.canonical⟩,
      List.forall_mem_cons.2 ⟨times_notSum hpi q, hts.notSum⟩,
      List.forall_mem_cons.2 ⟨isZero_times hq hpi, hts.notZero⟩, List.nodup_cons.2 ⟨fun hmem => ?_, hts.rests⟩⟩
    obtain ⟨t, ht, heq⟩ := List.mem_map.1 hmem
    have hrest := (hdefined t ht).splitCoeff.1
    rw [heq] at hrest
    dsimp only at hrest
    rw [hpi.splitCoeff_times, times_one_singleton] at hrest
    exact ((defined_pow _ _).1 hrest).1
  obtain ⟨us, hus, hsub⟩ := hrow.sum_cons
  have hdiff : times q [pow pi (rat n)] - x = ofTerms us := by rw [← hsub, ← hnegeq]; rfl
  have hsum : (ts.map (valueAt ρ)).sum = -valueAt ρ x := by
    have hvalue : valueAt ρ (ofTerms ts) = -valueAt ρ x := by
      rw [← hnegeq]
      exact hvneg.trans (by simp)
    rwa [valueAt, eval_ofTerms] at hvalue
  by_cases hc : c = 0
  · have hcanon : Canonical (ofTerms us) :=
      canonical_ofTerms (hrow.perm hus).canonical (hrow.perm hus).notSum (hrow.perm hus).notZero (hrow.perm hus).rests
    have hzero : rat c * ofTerms us = rat 0 := by rw [hc]; exact product_zero hcanon
    rw [hdiff, hzero, hc, zero_mul]
    exact hasValueAt_of_definedAt p (defined_rat 0)
  · obtain ⟨ws, hws, hprod⟩ := (hrow.perm hus).product_rat hc
    have hperm : ws.Perm (times (c * q) [pow pi (rat n)] :: ts.map (scale c)) := by
      rw [← scale_times c q hpi]
      exact hws.trans (hus.map _)
    have hvalues : ∀ w ∈ ws, HasValueAt ρ p w (valueAt ρ (w.atPi p)) := by
      intro w hw
      rcases List.mem_cons.1 (hperm.mem_iff.1 hw) with rfl | hw
      · exact ⟨(hasValueAt_pi_power _ _ _).1, rfl⟩
      · obtain ⟨t, ht, rfl⟩ := List.mem_map.1 hw
        obtain ⟨hrest, -⟩ := (hdefined t ht).splitCoeff
        exact ⟨(hasValueAt_of_definedAt p (eval_withCoeff _ hrest).1).1, rfl⟩
    obtain ⟨hd', hv'⟩ := hasValueAt_ofTerms hvalues
    have heq : rat c * (times q [pow pi (rat n)] - x) = ofTerms ws := by rw [hdiff]; exact hprod
    rw [heq]
    refine ⟨hd', hv'.trans ?_⟩
    have hscaled : (ts.map (scale c)).map (fun w => valueAt ρ (w.atPi p)) = ts.map fun t => c * valueAt ρ t := by
      rw [List.map_map]
      refine List.map_congr_left fun t ht => ?_
      obtain ⟨hrest, hsplit⟩ := (hdefined t ht).splitCoeff
      obtain ⟨hds, hvs⟩ := eval_withCoeff (c * t.splitCoeff.1) hrest
      rw [Function.comp_apply, (hasValueAt_of_definedAt (x := scale c t) p hds).2, valueAt, scale, hvs, mul_assoc, hsplit]
    rw [(hperm.map _).sum_eq, List.map_cons, List.sum_cons, (hasValueAt_pi_power _ _ _).2, hscaled, List.sum_map_mul_left,
      hsum]
    ring

end SymbolicSolver.Expr
