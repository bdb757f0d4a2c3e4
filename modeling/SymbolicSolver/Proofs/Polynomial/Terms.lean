import SymbolicSolver.Proofs.Polynomial.ClosedForm
import SymbolicSolver.Proofs.Simplify.Forms
import SymbolicSolver.Proofs.Simplify.Linear

/-!
# Terms of polynomials

A canonical term without sums among its factors is a power of the variable and what stands beside it, and it can be
put together again from the two. Terms of one degree in a canonical sum therefore differ in what stands beside the
power, and nothing cancels when the coefficient of this degree is collected: if the coefficient is rational, it is that
of a single term. So where the expansion of an expression is complete and its coefficients are rational, its terms are
rational multiples of different powers of the variable.
-/

namespace SymbolicSolver.Expr

variable {v : String} {x t : Expr}

/-! ## Sums of different terms -/

/-- Terms with different rests stay as they are in their sum. -/
theorem sum_of_terms {ts : List Expr} (hts : ∀ t ∈ ts, Canonical t) (hsum : ∀ t ∈ ts, t.isSum = false)
    (hzero : ∀ t ∈ ts, t.isZero = false) (hrests : (ts.map fun t => t.splitCoeff.2).Nodup) :
    ∃ us, us.Perm ts ∧ sum ts = ofTerms us := by
  rw [sum_of_canonical hts, flattenTerms_of_notSum hsum]
  by_cases hrat : ∃ q, rat q ∈ ts
  · obtain ⟨q, hq⟩ := hrat
    obtain ⟨us, ws, rfl⟩ := List.append_of_mem hq
    have hq0 : q ≠ 0 := by simpa [isZero] using hzero _ hq
    have hperm : (us ++ rat q :: ws).Perm (us ++ ws ++ [rat q]) := by
      rw [List.append_assoc]
      exact (List.perm_append_singleton _ _).symm.append_left _
    have hrests' := (hperm.map fun t => t.splitCoeff.2).nodup_iff.1 hrests
    rw [List.map_append, List.nodup_append] at hrests'
    obtain ⟨hnodup, -, hapart⟩ := hrests'
    -- No other term is rational: its rest would be that of `q`.
    have hothers : ∀ t ∈ us ++ ws, (t.infinitySign? = none ∧ t.rat? = none) ∧ Rejoins t := by
      intro t ht
      have hmem : t ∈ us ++ rat q :: ws := hperm.mem_iff.2 (List.mem_append_left _ ht)
      have hr : t.rat? = none := by
        cases hr : t.rat? with
        | none => rfl
        | some c =>
          obtain rfl := eq_rat_of_rat? hr
          exact absurd rfl (hapart _ (List.mem_map_of_mem ht) one (by simp [splitCoeff_rat]))
      exact ⟨⟨(hts t hmem).infinitySign?, hr⟩, (hts t hmem).rejoins (hsum t hmem) hr⟩
    have hfirst := @foldl_insert_terms us (fun t ht => (hothers t (List.mem_append_left _ ht)).1)
      TermGroups.empty (by
        rw [List.map_append] at hnodup
        simpa [TermGroups.empty] using (List.nodup_append.1 hnodup).1)
    have hrest := @foldl_insert_terms ws (fun t ht => (hothers t (List.mem_append_right _ ht)).1)
      ⟨q, false, false, us.map asGroup⟩ (by simpa [asGroup, Function.comp_def] using hnodup)
    refine ⟨us ++ ws ++ [rat q], hperm.symm, ?_⟩
    have hgroups : ((us ++ rat q :: ws).foldl TermGroups.insert TermGroups.empty) =
        ⟨q, false, false, (us ++ ws).map asGroup⟩ := by
      rw [List.foldl_append, hfirst, List.foldl_cons]
      simpa [TermGroups.empty, TermGroups.insert] using hrest
    rw [hgroups, TermGroups.allTerms, keptTerms_asGroup fun t ht => (hothers t ht).2, if_pos hq0]
  · have hterms : ∀ t ∈ ts, (t.infinitySign? = none ∧ t.rat? = none) ∧ Rejoins t := by
      intro t ht
      have hr : t.rat? = none := by
        cases hr : t.rat? with
        | none => rfl
        | some c => exact absurd ⟨c, eq_rat_of_rat? hr ▸ ht⟩ hrat
      exact ⟨⟨(hts t ht).infinitySign?, hr⟩, (hts t ht).rejoins (hsum t ht) hr⟩
    refine ⟨ts, .refl _, ?_⟩
    rw [foldl_insert_terms (fun t ht => (hterms t ht).1) (by simpa [TermGroups.empty] using hrests)]
    simpa [TermGroups.allTerms, TermGroups.empty] using
      congrArg ofTerms (keptTerms_asGroup fun t ht => (hterms t ht).2)

/-- A rational sum of different terms is its only term, or zero without any. -/
theorem eq_singleton_of_sum_eq_rat {ts : List Expr} (hts : ∀ t ∈ ts, Canonical t)
    (hsum : ∀ t ∈ ts, t.isSum = false) (hzero : ∀ t ∈ ts, t.isZero = false)
    (hrests : (ts.map fun t => t.splitCoeff.2).Nodup) {q : Rat} (h : sum ts = rat q) :
    ts = [] ∧ q = 0 ∨ ts = [rat q] ∧ q ≠ 0 := by
  obtain ⟨us, hperm, hus⟩ := sum_of_terms hts hsum hzero hrests
  rw [hus] at h
  match us with
  | [] =>
    obtain rfl : q = 0 := by simpa [ofTerms, zero, eq_comm] using h
    exact .inl ⟨hperm.nil_eq.symm, rfl⟩
  | [u] =>
    obtain rfl : u = rat q := h
    have hts' : ts = [rat q] := List.perm_singleton.1 hperm.symm
    exact .inr ⟨hts', by simpa [hts', isZero] using hzero⟩
  | u :: w :: us => simp [ofTerms] at h

/-! ## A term and its factors -/

theorem factors_times (q : Rat) {gs : List Expr} (h : ∀ g ∈ gs, g.isProduct = false) :
    (times q gs).factors = if q ≠ 1 ∨ gs = [] then rat q :: gs else gs := by
  match gs with
  | [] => simp [factors]
  | [g] =>
    by_cases hq : q = 1
    · have hg := h g (by simp)
      subst hq
      cases g <;> simp_all [factors, isProduct]
    · simp [times_of_ne_one hq, factors, hq]
  | f :: g :: gs =>
    by_cases hq : q = 1
    · simp [hq, factors]
    · simp [times_of_ne_one hq, factors, hq]

theorem Monomial.filter {gs : List Expr} (h : Monomial gs) (hs : ∀ g ∈ gs, g.isSum = false) (p : Expr → Bool) :
    Monomial (gs.filter p) where
  canonical f hf := h.canonical f (List.mem_of_mem_filter hf)
  row := ⟨fun f hf => h.row.notRat f (List.mem_of_mem_filter hf),
    fun f hf => h.row.notProduct f (List.mem_of_mem_filter hf),
    h.row.bases.sublist (List.filter_sublist.map _), h.row.sorted.filter p⟩
  notLone ts hts := by
    have hmem : add ts ∈ gs := List.mem_of_mem_filter (hts ▸ List.mem_singleton_self (add ts))
    exact absurd (hs _ hmem) (by simp [isSum])

theorem isZero_times {q : Rat} (hq : q ≠ 0) {gs : List Expr} (h : Monomial gs) : (times q gs).isZero = false := by
  by_cases hne : gs = []
  · simpa [hne, isZero] using hq
  · exact isZero_of_rat?_eq_none (times_ne_rat h hne q)

/-- Factors with a coefficient multiply to the coefficient in front of them. -/
theorem product_times (q : Rat) (hq : q ≠ 0) {gs : List Expr} (h : Monomial gs) :
    product (rat q :: gs) = times q gs := by
  obtain ⟨k, hk⟩ := roundsFor_eq (sizeAll (rat q :: gs))
  have hflat : flattenFactors (rat q :: gs) = [q].map rat ++ gs := by
    rw [flattenFactors, flattenFactors_of_notProduct h.row.notProduct]
    · rfl
    · simp
  rw [product, hk, productWithin_row (k + 2) hflat h.canonical h.row (by simpa using hq) (.inr h.notLone),
    List.prod_singleton]

theorem product_times_one {gs : List Expr} (h : Monomial gs) : product gs = times 1 gs := by
  obtain ⟨k, hk⟩ := roundsFor_eq (sizeAll gs)
  have hflat : flattenFactors gs = ([] : List Rat).map rat ++ gs := flattenFactors_of_notProduct h.row.notProduct
  rw [product, hk, productWithin_row (k + 2) hflat h.canonical h.row (by simp) (.inl rfl), List.prod_nil]

theorem product_nil : product [] = one := (product_times_one .nil).trans (times_nil 1)

/-- Zero times a canonical expression. -/
theorem product_zero (hx : Canonical x) : product [rat 0, x] = rat 0 := by
  obtain ⟨k, hk⟩ := roundsFor_eq (sizeAll [rat 0, x])
  rw [product, hk]
  by_cases hs : x.isSum = true
  · cases x with
    | add ts =>
      have hflat : flattenFactors [rat 0, add ts] = [0].map rat ++ [add ts] := by simp [flattenFactors]
      exact productWithin_row_zero (k + 2) hflat (by simpa using hx) (factorRow_sum ts) (by simp)
    | _ => cases hs
  · obtain ⟨c, fs, rfl, hfs, -⟩ := hx.monomial (Bool.eq_false_of_not_eq_true hs)
    obtain ⟨cs, hflat, hprod⟩ := flattenFactors_times 0 c hfs
    exact productWithin_row_zero (k + 2) hflat hfs.canonical hfs.row (by rw [hprod, zero_mul])

/-! ## The power of the variable -/

/-- The factor that is a power of the variable; the power with exponent zero needs none. -/
def powerFactors (v : String) : Nat → List Expr
  | 0 => []
  | 1 => [var v]
  | k + 2 => [pow (var v) (int (k + 2 : Nat))]

theorem length_powerFactors_le (v : String) : ∀ k, (powerFactors v k).length ≤ 1
  | 0 => Nat.zero_le _
  | 1 | _ + 2 => le_rfl

theorem hasVar_mul (fs : List Expr) : (mul fs).hasVar v = fs.any (hasVar v) := by
  have hany (xs : List Expr) : existAny (· = var v) xs = xs.any (hasVar v) := by
    induction xs with
    | nil => rfl
    | cons x xs ih => rw [existAny, ih, List.any_cons, hasVar]
  simp [hasVar, exist, hany]

theorem hasVar_times (q : Rat) (gs : List Expr) : (times q gs).hasVar v = gs.any (hasVar v) := by
  have hrat : (rat q).hasVar v = false := by simp [hasVar, exist]
  match gs with
  | [] => simpa using hrat
  | [g] =>
    by_cases hq : q = 1
    · simp [hq]
    · simp [times_of_ne_one hq, hasVar_mul, hrat]
  | f :: g :: gs =>
    by_cases hq : q = 1
    · simp [hq, hasVar_mul]
    · simp [times_of_ne_one hq, hasVar_mul, hrat]

/-- A factor of known degree is the power of the variable. -/
theorem powerFactors_of_varDegree? {f : Expr} {k : Nat} (hf : Canonical f) (hp : f.isProduct = false)
    (h : varDegree? v f = some k) : powerFactors v k = [f] := by
  cases hf with
  | var s =>
    simp only [varDegree?, Option.ite_none_right_eq_some, Option.some.injEq] at h
    obtain ⟨rfl, rfl⟩ := h
    rfl
  | @power b n hb hbase h0 h1 hlarge =>
    simp only [varDegree?, Option.ite_none_right_eq_some, Option.bind_eq_some_iff, Bool.and_eq_true,
      decide_eq_true_eq, Option.some.injEq] at h
    obtain ⟨rfl, m, hm, ⟨hpos, -⟩, rfl⟩ := h
    obtain rfl : n = m := by simpa using smallInt?_eq_some hm
    obtain ⟨k, hk⟩ : ∃ k : Nat, n = (k + 2 : Nat) := ⟨(n - 2).toNat, by omega⟩
    subst hk
    rw [Int.natAbs_natCast]
    rfl
  | product => cases hp
  | scaled => cases hp
  | _ => simp [varDegree?] at h

theorem varDegreeAll?_filter {fs : List Expr} {k : Nat} (h : varDegreeAll? v fs = some k) :
    ∃ f, fs.filter (hasVar v) = [f] ∧ varDegree? v f = some k := by
  induction fs with
  | nil => simp [varDegreeAll?] at h
  | cons f fs ih =>
    rw [varDegreeAll?] at h
    split at h
    · rename_i hvar
      simp only [Option.ite_none_left_eq_some] at h
      obtain ⟨hothers, hk⟩ := h
      refine ⟨f, ?_, hk⟩
      rw [List.filter_cons_of_pos hvar, List.filter_eq_nil_iff.2]
      simpa using hothers
    · rename_i hvar
      obtain ⟨g, hg, hk⟩ := ih h
      exact ⟨g, by rw [List.filter_cons_of_neg hvar, hg], hk⟩

/-- A monomial in terms of its factors. -/
theorem monomial?_eq (hvar : t.hasVar v = true) : monomial? v t =
    (varDegreeAll? v t.factors).map fun k => (k, product (t.factors.filter fun f => !f.hasVar v)) := by
  have hsingle (hp : t.factors = [t]) : varDegreeAll? v t.factors = varDegree? v t ∧
      product (t.factors.filter fun f => !f.hasVar v) = one := by
    rw [hp]
    simp [varDegreeAll?, hvar, product_nil]
  rw [monomial?, hvar, if_neg (by simp)]
  cases t with
  | mul fs => rfl
  | _ =>
    obtain ⟨hdegree, hproduct⟩ := hsingle rfl
    rw [hdegree, hproduct]

/-- A canonical term other than zero, without sums among its factors. -/
structure FlatTerm (t : Expr) : Prop where
  canonical : Canonical t
  notSum : t.isSum = false
  notZero : t.isZero = false
  factors : ∀ f ∈ t.factors, f.isSum = false

/-- The parts of such a term: its coefficient, its power of the variable, and what else it has. -/
theorem FlatTerm.parts (ht : FlatTerm t) {m : Nat × Expr} (h : monomial? v t = some m) :
    ∃ q gs, q ≠ 0 ∧ Monomial gs ∧ (∀ g ∈ gs, g.isSum = false) ∧ t = times q gs ∧
      m.2 = times q (gs.filter fun g => !g.hasVar v) ∧ gs.filter (hasVar v) = powerFactors v m.1 := by
  obtain ⟨q, gs, rfl, hgs, hq⟩ := ht.canonical.monomial ht.notSum
  have hfactors := factors_times q hgs.row.notProduct
  have hgsum : ∀ g ∈ gs, g.isSum = false := by
    intro g hg
    refine ht.factors g ?_
    rw [hfactors]
    split
    · exact List.mem_cons_of_mem _ hg
    · exact hg
  refine ⟨q, gs, hq ht.notZero, hgs, hgsum, rfl, ?_⟩
  by_cases hvar : (times q gs).hasVar v = true
  · rw [monomial?_eq hvar] at h
    obtain ⟨k, hk, rfl⟩ := Option.map_eq_some_iff.1 h
    have hrat : (rat q).hasVar v = false := by simp [hasVar, exist]
    have hothers : product ((times q gs).factors.filter fun f => !f.hasVar v) =
        times q (gs.filter fun g => !g.hasVar v) := by
      rw [hfactors]
      split
      · rw [List.filter_cons_of_pos (by simp [hrat])]
        exact product_times q (hq ht.notZero) (hgs.filter hgsum _)
      · rename_i hone
        simp only [not_or, not_not] at hone
        rw [hone.1]
        exact product_times_one (hgs.filter hgsum _)
    have hdegree : varDegreeAll? v gs = some k := by
      rw [hfactors] at hk
      split at hk
      · rwa [varDegreeAll?, if_neg (by simp [hrat])] at hk
      · exact hk
    obtain ⟨f, hfilter, hdf⟩ := varDegreeAll?_filter hdegree
    have hmem : f ∈ gs := List.mem_of_mem_filter (hfilter ▸ List.mem_singleton_self f)
    exact ⟨hothers, hfilter.trans
      (powerFactors_of_varDegree? (hgs.canonical f hmem) (hgs.row.notProduct f hmem) hdf).symm⟩
  · rw [monomial?, if_pos (by simpa using hvar)] at h
    obtain rfl := Option.some.inj h
    have hnone : ∀ g ∈ gs, g.hasVar v = false := by
      rw [hasVar_times] at hvar
      simpa using hvar
    exact ⟨by rw [List.filter_eq_self.2 fun g hg => by simp [hnone g hg]],
      List.filter_eq_nil_iff.2 fun g hg => by simp [hnone g hg]⟩

/-! ## Putting a term together -/

/-- The power of a variable stands strictly before or behind any other factor. -/
theorem compareFactors_ne_eq {f g : Expr} {k : Nat} (hf : powerFactors v k = [f]) (hg : g.hasVar v = false) :
    compareFactors g f ≠ .eq := by
  have hkey : f.factorKey.1 = 4 ∧ f.factorKey.2.1 = "VAR(" ++ v ++ ")" := by
    match k with
    | 0 => simp [powerFactors] at hf
    | 1 =>
      obtain rfl : var v = f := by simpa [powerFactors] using hf
      exact ⟨rfl, rfl⟩
    | k + 2 =>
      obtain rfl : pow (var v) (int (k + 2 : Nat)) = f := by simpa [powerFactors] using hf
      exact ⟨rfl, rfl⟩
  have hvar {s : String} (hs : (var s).hasVar v = false) : "VAR(" ++ s ++ ")" ≠ "VAR(" ++ v ++ ")" := by
    intro heq
    simp [hasVar, exist, var_key_inj heq] at hs
  intro heq
  simp only [compareFactors, Ordering.then_eq_eq, hkey] at heq
  have hrank := Std.LawfulEqCmp.eq_of_compare heq.1
  have hname := Std.LawfulEqCmp.eq_of_compare heq.2.1
  cases g with
  | var s => exact hvar hg hname
  | pow b x =>
    have hb : b.hasVar v = false := by
      simp only [hasVar, exist, Bool.or_eq_false_iff] at hg
      exact hg.1.2
    rw [factorKey] at hrank hname
    split at hrank
    · cases hrank
    · rename_i hexp
      rw [if_neg hexp] at hname
      cases b with
      | var s => exact hvar hb hname
      | _ => simp [rank] at hrank
  | _ => simp [factorKey, rank] at hrank

/-- A sorted row is determined by the power of the variable and by the other factors. -/
theorem row_of_parts {gs : List Expr} (hgs : SortedBy compareFactors gs) {f : Expr} {k : Nat}
    (hf : powerFactors v k = [f]) (hvar : gs.filter (hasVar v) = [f]) :
    gs = (gs.filter fun g => !g.hasVar v).filter (fun g => compareFactors g f = .lt) ++
      f :: (gs.filter fun g => !g.hasVar v).filter (fun g => compareFactors g f ≠ .lt) := by
  obtain ⟨l, r, rfl, hl, hfv, hr⟩ := List.filter_eq_cons_iff.1 hvar
  have hr := List.filter_eq_nil_iff.1 hr
  have hothers : ((l ++ f :: r).filter fun g => !g.hasVar v) = l ++ r := by
    rw [List.filter_append, List.filter_cons_of_neg (by simp [hfv]), List.filter_eq_self.2, List.filter_eq_self.2]
    · simpa using hr
    · simpa using hl
  obtain ⟨-, hright, hcross⟩ := List.pairwise_append.1 hgs
  have hbefore : ∀ g ∈ l, compareFactors g f = .lt := by
    intro g hg
    have hle := hcross g hg f List.mem_cons_self
    have hne := compareFactors_ne_eq hf (by simpa using hl g hg)
    cases hc : compareFactors g f <;> simp_all
  have hbehind : ∀ g ∈ r, compareFactors g f ≠ .lt := by
    intro g hg hlt
    have hle := (List.pairwise_cons.1 hright).1 g hg
    rw [@Std.OrientedCmp.eq_swap _ compareFactors, hlt] at hle
    exact absurd hle (by decide)
  rw [hothers, List.filter_append, List.filter_append, List.filter_eq_self.2 (by simpa using hbefore),
    List.filter_eq_nil_iff.2 (by simpa using hbehind), List.filter_eq_nil_iff.2 (by simpa using hbefore),
    List.filter_eq_self.2 (by simpa using hbehind)]
  simp

theorem filter_factors_times (q : Rat) {gs : List Expr} (h : Monomial gs) :
    ((times q gs).factors.filter fun f => f.rat?.isNone) = gs := by
  have hself : (gs.filter fun f => f.rat?.isNone) = gs :=
    List.filter_eq_self.2 fun g hg => by simp [h.row.notRat g hg]
  rw [factors_times q h.row.notProduct]
  split
  · rw [List.filter_cons_of_neg (by simp [rat?]), hself]
  · exact hself

/-- Terms of the same degree with the same rest beside the power of the variable have the same rest. -/
theorem FlatTerm.rest_eq {u : Expr} (ht : FlatTerm t) (hu : FlatTerm u) {m n : Nat × Expr}
    (hm : monomial? v t = some m) (hn : monomial? v u = some n) (hdegree : m.1 = n.1)
    (hrest : m.2.splitCoeff.2 = n.2.splitCoeff.2) : t.splitCoeff.2 = u.splitCoeff.2 := by
  obtain ⟨q, gs, -, hgs, hgsum, rfl, hmc, hmv⟩ := ht.parts hm
  obtain ⟨c, hs, -, hhs, hhsum, rfl, hnc, hnv⟩ := hu.parts hn
  rw [hmc, hnc, (hgs.filter hgsum _).splitCoeff_times, (hhs.filter hhsum _).splitCoeff_times] at hrest
  dsimp only at hrest
  have hothers : (gs.filter fun g => !g.hasVar v) = hs.filter fun g => !g.hasVar v := by
    rw [← filter_factors_times 1 (hgs.filter hgsum _), hrest, filter_factors_times 1 (hhs.filter hhsum _)]
  rw [← hdegree] at hnv
  rw [hgs.splitCoeff_times, hhs.splitCoeff_times]
  -- With a power of the variable both rows are the others with this power at its place; without one there are only
  -- the others.
  cases hpower : powerFactors v m.1 with
  | nil =>
    rw [hpower] at hmv hnv
    have hnone {fs : List Expr} (h : fs.filter (hasVar v) = []) : (fs.filter fun g => !g.hasVar v) = fs :=
      List.filter_eq_self.2 (by simpa using List.filter_eq_nil_iff.1 h)
    rw [← hnone hmv, hothers, hnone hnv]
  | cons f fs =>
    obtain rfl : fs = [] := by simpa [hpower] using length_powerFactors_le v m.1
    rw [row_of_parts hgs.row.sorted hpower (hmv.trans hpower), row_of_parts hhs.row.sorted hpower (hnv.trans hpower),
      hothers]

/-! ## Coefficients of different terms -/

/-- What stands beside the power of the variable is such a term again. -/
theorem FlatTerm.cofactor (ht : FlatTerm t) {m : Nat × Expr} (hm : monomial? v t = some m) :
    Canonical m.2 ∧ m.2.isSum = false ∧ m.2.isZero = false := by
  obtain ⟨q, gs, hq, hgs, hgsum, -, hmc, -⟩ := ht.parts hm
  have hothers := hgs.filter hgsum fun g => !g.hasVar v
  rw [hmc]
  exact ⟨hothers.canonical_times hq, times_notSum hothers q, isZero_times hq hothers⟩

/-- A canonical expression whose terms keep no sum among their factors: everything in it is multiplied out. -/
def MultipliedOut (x : Expr) : Prop := ∀ t ∈ x.terms, ∀ f ∈ t.factors, f.isSum = false

theorem eq_zero_of_isZero {x : Expr} (h : x.isZero = true) : x = rat 0 := by
  cases x <;> simp_all [isZero]

/-- A canonical expression is a sum of two terms or more, or its only term. -/
theorem Canonical.terms_cases (hx : Canonical x) :
    (∃ ts, x = add ts ∧ (∀ t ∈ ts, Canonical t) ∧ TermRow ts ∧ 2 ≤ ts.length) ∨
      x.terms = [x] ∧ x.isSum = false := by
  cases hx with
  | sum hts hrow hlen => exact .inl ⟨_, rfl, hts, hrow, hlen⟩
  | _ => exact .inr ⟨rfl, rfl⟩

theorem Canonical.flatTerms (hx : Canonical x) (hz : x.isZero = false) (hout : MultipliedOut x) :
    (∀ t ∈ x.terms, FlatTerm t) ∧ (x.terms.map fun t => t.splitCoeff.2).Nodup := by
  rcases hx.terms_cases with ⟨ts, rfl, hts, hrow, -⟩ | ⟨hterms, hs⟩
  · exact ⟨fun t ht => ⟨hts t ht, hrow.notSum t ht, hrow.notZero t ht, hout t ht⟩, hrow.rests⟩
  · rw [hterms]
    refine ⟨fun t ht => ?_, by simp⟩
    obtain rfl := List.mem_singleton.1 ht
    exact ⟨hx, hs, hz, hout _ (hterms ▸ List.mem_singleton_self _)⟩

/-- The collected coefficients of a polynomial, lowest degree first. -/
def collect (ms : List (Nat × Expr)) : List Expr :=
  (List.range ((ms.map (·.1)).foldl max 0 + 1)).map fun k => sum ((ms.filter fun m => m.1 = k).map (·.2))

theorem coefficients?_eq (x : Expr) (v : String) : x.coefficients? v =
    (x.expand.terms.mapM (monomial? v)).map fun ms =>
      match dropZeroLead (collect ms) with
      | [] => [zero]
      | cs => cs := rfl

/-- Of each degree there is one term at most if the coefficient is rational, and it is the coefficient. -/
theorem group_eq {ts : List Expr} {ms : List (Nat × Expr)} (hts : ∀ t ∈ ts, FlatTerm t)
    (hrests : (ts.map fun t => t.splitCoeff.2).Nodup)
    (hms : List.Forall₂ (fun t m => monomial? v t = some m) ts ms) (k : Nat) {q : Rat}
    (h : sum ((ms.filter fun m => m.1 = k).map (·.2)) = rat q) :
    (ms.filter fun m => m.1 = k).map (·.2) = [] ∧ q = 0 ∨
      (ms.filter fun m => m.1 = k).map (·.2) = [rat q] ∧ q ≠ 0 := by
  have hmem : ∀ c ∈ (ms.filter fun m => m.1 = k).map (·.2), Canonical c ∧ c.isSum = false ∧ c.isZero = false := by
    intro c hc
    obtain ⟨m, hm, rfl⟩ := List.mem_map.1 hc
    obtain ⟨t, ht, htm⟩ := exists_mem_of_forall₂ hms (List.mem_of_mem_filter hm)
    exact (hts t ht).cofactor htm
  have hapart : ms.Pairwise fun m n => m.1 = n.1 → m.2.splitCoeff.2 ≠ n.2.splitCoeff.2 := by
    have hpairs := List.pairwise_map.1 hrests
    clear h hmem hrests
    induction hms with
    | nil => exact .nil
    | @cons t m ts ms hm hms ih =>
      obtain ⟨ht, hts⟩ := List.forall_mem_cons.1 hts
      obtain ⟨hfirst, hpairs⟩ := List.pairwise_cons.1 hpairs
      refine .cons (fun n hn hdegree hrest => ?_) (ih hts hpairs)
      obtain ⟨u, hu, hun⟩ := exists_mem_of_forall₂ hms hn
      exact hfirst u hu (ht.rest_eq (hts u hu) hm hun hdegree hrest)
  refine eq_singleton_of_sum_eq_rat (fun c hc => (hmem c hc).1) (fun c hc => (hmem c hc).2.1)
    (fun c hc => (hmem c hc).2.2) ?_ h
  rw [List.map_map]
  refine List.pairwise_map.2 ((hapart.filter _).imp_of_mem fun {m n} hm hn hne => hne ?_)
  have hmk : m.1 = k := by simpa using (List.mem_filter.1 hm).2
  have hnk : n.1 = k := by simpa using (List.mem_filter.1 hn).2
  rw [hmk, hnk]

theorem isZero_getLast_dropZeroLead {cs : List Expr} {c : Expr} (h : (dropZeroLead cs).getLast? = some c) :
    c.isZero = false := by
  induction cs with
  | nil => cases h
  | cons d cs ih =>
    rw [dropZeroLead] at h
    split at h
    · split at h
      · cases h
      · rename_i hd
        obtain rfl : d = c := by simpa using h
        simpa using hd
    · rename_i hrest
      rw [hrest] at ih
      exact ih (by simpa using h)

/-- Coefficients that are rational once the zeros at the end are gone were so before. -/
theorem rationals_of_dropZeroLead {cs : List Expr} {qs : List Rat} (h : (dropZeroLead cs).mapM rat? = some qs) :
    ∃ rs, cs = rs.map rat ∧ stripZeros rs = qs := by
  induction cs generalizing qs with
  | nil => exact ⟨[], rfl, by simpa [dropZeroLead, stripZeros] using h⟩
  | cons c cs ih =>
    rw [dropZeroLead] at h
    cases hrest : dropZeroLead cs with
    | nil =>
      obtain ⟨rs, rfl, hrs⟩ := @ih [] (by rw [hrest]; rfl)
      rw [hrest] at h
      dsimp only at h
      split at h
      · rename_i hc
        obtain rfl : c = rat 0 := by cases c <;> simp_all [isZero]
        exact ⟨0 :: rs, rfl, by simpa [stripZeros, hrs] using h⟩
      · rename_i hc
        obtain ⟨q, hq, rfl⟩ : ∃ q, c.rat? = some q ∧ [q] = qs := by
          simpa [List.mapM_cons, Option.bind_eq_some_iff] using h
        obtain rfl := eq_rat_of_rat? hq
        have hq0 : q ≠ 0 := by simpa [isZero] using hc
        exact ⟨q :: rs, rfl, by simp [stripZeros, hrs, hq0]⟩
    | cons d ds =>
      rw [hrest] at h ih
      dsimp only at h
      rw [List.mapM_cons] at h
      simp only [Option.bind_eq_bind, Option.bind_eq_some_iff, Option.pure_def, Option.some.injEq] at h
      obtain ⟨q, hq, ps, hps, rfl⟩ := h
      obtain rfl := eq_rat_of_rat? hq
      obtain ⟨rs, rfl, hrs⟩ := ih hps
      refine ⟨q :: rs, rfl, ?_⟩
      have hne : ps ≠ [] := by
        rintro rfl
        simp [List.mapM_cons, Option.bind_eq_some_iff] at hps
      obtain ⟨p, ps, rfl⟩ := List.exists_cons_of_ne_nil hne
      rw [stripZeros, hrs]

/-- A polynomial that is read has the collected coefficients. -/
theorem ratPoly?_collect {p : RatPoly} (h : x.ratPoly? v = some p) :
    ∃ ms rs, List.Forall₂ (fun t m => monomial? v t = some m) x.expand.terms ms ∧ collect ms = rs.map rat ∧
      p.toPoly = RatPoly.polyOf rs := by
  obtain ⟨cs, hcs, h⟩ := Option.bind_eq_some_iff.1 h
  obtain ⟨qs, hqs, rfl⟩ := Option.map_eq_some_iff.1 h
  rw [coefficients?_eq] at hcs
  obtain ⟨ms, hms, rfl⟩ := Option.map_eq_some_iff.1 hcs
  refine ⟨ms, ?_⟩
  cases hdrop : dropZeroLead (collect ms) with
  | nil =>
    obtain ⟨rs, hrs, hstrip⟩ := @rationals_of_dropZeroLead (collect ms) [] (by rw [hdrop]; rfl)
    rw [hdrop] at hqs
    obtain rfl : qs = [0] := by simpa [zero, rat?, List.mapM_cons, eq_comm] using hqs
    refine ⟨rs, forall₂_of_mapM_eq_some hms, hrs, ?_⟩
    rw [RatPoly.toPoly_ofList, ← RatPoly.polyOf_stripZeros rs, hstrip]
    simp
  | cons d ds =>
    rw [hdrop] at hqs
    obtain ⟨rs, hrs, hstrip⟩ := @rationals_of_dropZeroLead (collect ms) qs (by rw [hdrop]; exact hqs)
    refine ⟨rs, forall₂_of_mapM_eq_some hms, hrs, ?_⟩
    rw [RatPoly.toPoly_ofList, ← RatPoly.polyOf_stripZeros rs, hstrip]

/-! ## Complete expansions -/

/-- An expression is read as a polynomial, and its expansion is complete: no limit on the number of terms left a sum
among the factors of a term. -/
structure ReadsAs (v : String) (x : Expr) (p : RatPoly) : Prop where
  reading : x.ratPoly? v = some p
  complete : MultipliedOut x.expand

namespace ReadsAs

variable {p : RatPoly}

/-- The terms of the expansion are rational multiples of powers of the variable, with the coefficients that are read. -/
theorem terms (h : ReadsAs v x p) (hx : Canonical x.expand) (hz : x.expand.isZero = false) :
    ∀ t ∈ x.expand.terms, ∃ k, p.toPoly.coeff k ≠ 0 ∧ t = times (p.toPoly.coeff k) (powerFactors v k) := by
  obtain ⟨ms, rs, hms, hrs, hp⟩ := ratPoly?_collect h.reading
  obtain ⟨hflat, hrests⟩ := hx.flatTerms hz h.complete
  intro t ht
  obtain ⟨m, hm, htm⟩ : ∃ m ∈ ms, monomial? v t = some m := exists_mem_of_forall₂ hms.flip ht
  have hk : m.1 < (ms.map (·.1)).foldl max 0 + 1 :=
    Nat.lt_succ_of_le ((le_foldl_max _ 0).2 m.1 (List.mem_map_of_mem hm))
  have hsum : sum ((ms.filter fun n => n.1 = m.1).map (·.2)) = rat (rs.getD m.1 0) := by
    have hget := congrArg (·[m.1]?) hrs
    simp only [collect, List.getElem?_map, List.getElem?_range hk, Option.map_some] at hget
    obtain ⟨q, hq, hsum⟩ := Option.map_eq_some_iff.1 hget.symm
    rw [List.getD_eq_getElem?_getD, hq, Option.getD_some, hsum]
  have hmem : m.2 ∈ (ms.filter fun n => n.1 = m.1).map (·.2) :=
    List.mem_map_of_mem (List.mem_filter.2 ⟨hm, by simp⟩)
  obtain ⟨hnil, -⟩ | ⟨hone, hne⟩ := group_eq hflat hrests hms m.1 hsum
  · rw [hnil] at hmem
    cases hmem
  · rw [hone, List.mem_singleton] at hmem
    refine ⟨m.1, ?_⟩
    rw [hp, RatPoly.coeff_polyOf]
    refine ⟨hne, ?_⟩
    -- What stands beside the power is the rational, so the power is the only factor.
    obtain ⟨q, gs, -, hgs, hgsum, rfl, hmc, hmv⟩ := (hflat t ht).parts htm
    have hothers := hgs.filter hgsum fun g => !g.hasVar v
    have hfactors := filter_factors_times q hothers
    rw [← hmc, hmem] at hfactors
    have hnil : (gs.filter fun g => !g.hasVar v) = [] := by simpa [factors, rat?] using hfactors.symm
    have hq : rs.getD m.1 0 = q := by
      rw [hnil, times_nil, hmem] at hmc
      exact Expr.rat.inj hmc
    have hall : gs.filter (hasVar v) = gs := List.filter_eq_self.2 (by simpa using List.filter_eq_nil_iff.1 hnil)
    rw [hq, ← hmv, hall]

/-- What is read as a constant expands to a rational. -/
theorem expand_eq_rat (h : ReadsAs v x p) (hx : Canonical x.expand) {c : Rat} (hp : p.toPoly = Polynomial.C c) :
    ∃ q, x.expand = rat q := by
  by_cases hz : x.expand.isZero = true
  · exact ⟨0, eq_zero_of_isZero hz⟩
  have hz := Bool.eq_false_of_not_eq_true hz
  have hconst : ∀ t ∈ x.expand.terms, t = rat c := by
    intro t ht
    obtain ⟨k, hk, rfl⟩ := h.terms hx hz t ht
    rw [hp, Polynomial.coeff_C] at hk ⊢
    obtain rfl : k = 0 := by
      by_contra hne
      exact hk (if_neg hne)
    rw [if_pos rfl]
    exact times_nil c
  have hrests := (hx.flatTerms hz h.complete).2
  rcases hx.terms_cases with ⟨ts, hts, -, -, hlen⟩ | ⟨hterms, -⟩
  · -- two terms would have the same rest
    rw [hts] at hconst hrests
    match ts with
    | t :: u :: ts =>
      have ht : t = rat c := hconst t (by simp [Expr.terms])
      have hu : u = rat c := hconst u (by simp [Expr.terms])
      simp [Expr.terms, ht, hu] at hrests
  · exact ⟨c, hconst _ (hterms ▸ List.mem_singleton_self _)⟩

end ReadsAs

theorem monomial_powerFactors (v : String) : ∀ k, Monomial (powerFactors v k)
  | 0 => .nil
  | 1 => ⟨by simpa [powerFactors] using .var v, ⟨by simp [powerFactors, rat?], by simp [powerFactors, isProduct],
      by simp [powerFactors], List.pairwise_singleton _ _⟩, by simp [powerFactors]⟩
  | k + 2 => by
    have hbase : PowerBase (var v) := ⟨rfl, by simp, rfl, rfl⟩
    have hpow : Canonical (pow (var v) (int (k + 2 : Nat))) :=
      .power (.var v) hbase (by omega) (by omega) (by simp)
    exact ⟨by simpa [powerFactors] using hpow, ⟨by simp [powerFactors, rat?], by simp [powerFactors, isProduct],
      by simp [powerFactors], List.pairwise_singleton _ _⟩, by simp [powerFactors]⟩

theorem sum_singleton {t : Expr} (ht : Canonical t) (hs : t.isSum = false) (hz : t.isZero = false) :
    sum [t] = t := by
  obtain ⟨us, hperm, hsum⟩ := @sum_of_terms [t] (by simpa using ht) (by simpa using hs) (by simpa using hz)
    (by simp)
  rw [hsum, List.perm_singleton.1 hperm]
  rfl

theorem distribute_terms {a b : Expr} (ha : a.terms = [a]) (hb : b.terms = [b]) :
    distribute a b = sum [product [a, b]] := by
  have hlimit : ¬ maxExpandedTerms < [a].length * [b].length := by simp [maxExpandedTerms]
  rw [distribute, ha, hb, if_neg hlimit, List.flatMap_singleton, List.map_singleton]

theorem expandPower_of_notSum {b y : Expr} (h : b.isSum = false) : expandPower b y = power b y := by
  unfold expandPower
  split <;> simp [h]

/-- A rational multiple of what is expanded. -/
theorem expand_times_singleton {q : Rat} (hq : q ≠ 0) (hq1 : q ≠ 1) {f : Expr} (hterms : f.terms = [f])
    (hexp : f.expand = f) : (times q [f]).expand = sum [product [rat q, f]] := by
  have hfirst : distribute one (rat q) = rat q := by
    rw [distribute_terms rfl rfl, one, product_rat_rat, one_mul]
    exact sum_singleton (.rat q) rfl (by simpa [isZero] using hq)
  have hrat : (rat q).expand = rat q := by simp [expand]
  rw [times_of_ne_one hq1 (by simp), expand, expandAll_eq_map, List.map_cons, List.map_cons, hexp, hrat, List.map_nil,
    List.foldl_cons, List.foldl_cons, List.foldl_nil, hfirst, distribute_terms rfl hterms]

/-- There is nothing to multiply out in a rational multiple of a power. -/
theorem expand_times_powerFactors {q : Rat} (hq : q ≠ 0) (v : String) (k : Nat) :
    (times q (powerFactors v k)).expand = times q (powerFactors v k) := by
  have hmono := monomial_powerFactors v k
  have hsingle {f : Expr} (hf : powerFactors v k = [f]) (hexp : f.expand = f) :
      (times q (powerFactors v k)).expand = times q (powerFactors v k) := by
    rw [hf] at hmono ⊢
    by_cases hq1 : q = 1
    · rw [hq1, times_one_singleton, hexp]
    have hterms : f.terms = [f] := terms_of_notSum (times_one_singleton f ▸ times_notSum hmono 1)
    rw [expand_times_singleton hq hq1 hterms hexp, product_times q hq hmono]
    exact sum_singleton (hmono.canonical_times hq) (times_notSum hmono q) (isZero_times hq hmono)
  match k with
  | 0 => simp [powerFactors, expand]
  | 1 => exact hsingle rfl rfl
  | k + 2 =>
    refine hsingle rfl ?_
    have hcanon := (monomial_powerFactors v (k + 2)).canonical _ (List.mem_singleton_self _)
    have hpower : power (var v) (int (k + 2 : Nat)) = pow (var v) (int (k + 2 : Nat)) := power_base hcanon
    have hexpand : (pow (var v) (int (k + 2 : Nat))).expand = expandPower (var v) (int (k + 2 : Nat)) := by
      simp [expand, int]
    rw [hexpand, expandPower_of_notSum rfl, hpower]

/-- A canonical expression whose terms expand to themselves expands to itself. -/
theorem Canonical.expand_eq {x : Expr} (hx : Canonical x) (hterms : ∀ t ∈ x.terms, t.expand = t) : x.expand = x := by
  rcases hx.terms_cases with ⟨ts, rfl, hts, hrow, hlen⟩ | ⟨hsingle, -⟩
  · have hmap : ts.map expand = ts.map id := List.map_congr_left hterms
    rw [expand, expandAll_eq_map, hmap, List.map_id]
    exact sum_terms hts hrow hlen
  · exact hterms x (hsingle ▸ List.mem_singleton_self x)

/-- A complete expansion is stable. -/
theorem ReadsAs.expand_expand {p : RatPoly} (h : ReadsAs v x p) (hx : Canonical x.expand) :
    x.expand.expand = x.expand := by
  by_cases hz : x.expand.isZero = true
  · rw [eq_zero_of_isZero hz]
    rfl
  refine hx.expand_eq fun t ht => ?_
  obtain ⟨k, hk, rfl⟩ := h.terms hx (Bool.eq_false_of_not_eq_true hz) t ht
  exact expand_times_powerFactors hk v k

/-- What expands to a rational is read as a constant. -/
theorem ReadsAs.of_expand_eq_rat {q : Rat} (h : x.expand = rat q) : ReadsAs v x (.ofList [q]) := by
  refine ⟨?_, by simp [h, MultipliedOut, Expr.terms, Expr.factors, isSum]⟩
  have hterms : (rat q).terms.mapM (monomial? v) = some [(0, rat q)] := by
    have hmono : monomial? v (rat q) = some (0, rat q) := by simp [monomial?, hasVar, exist]
    rw [show (rat q).terms = [rat q] from rfl, List.mapM_cons, hmono]
    rfl
  have hcollect : collect [(0, rat q)] = [rat q] := by
    simpa [collect] using sum_map_rat [q]
  have hcs : x.coefficients? v = some [rat q] := by
    rw [coefficients?_eq, h, hterms, Option.map_some, hcollect]
    by_cases hq : q = 0 <;> simp [dropZeroLead, isZero, hq, zero]
  simp [ratPoly?, hcs, rat?, List.mapM_cons]

/-- Expanding before reading makes no difference. -/
theorem ReadsAs.ratPoly?_expand {p : RatPoly} (h : ReadsAs v x p) (hx : Canonical x.expand) :
    x.expand.ratPoly? v = some p := by
  rw [← h.reading, ratPoly?, ratPoly?, coefficients?_eq, coefficients?_eq, h.expand_expand hx]

end SymbolicSolver.Expr
