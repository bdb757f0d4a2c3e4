import SymbolicSolver.Proofs.Canonical.Form

/-!
# Sums of canonical forms

The sum of canonical expressions is canonical, and the sum of the terms of a canonical sum is that sum.
-/

namespace SymbolicSolver.Expr

/-! ## Terms -/

/-- What stands behind the coefficient of a term that is no rational. -/
def IsRest (x : Expr) : Prop := ∃ fs, fs ≠ [] ∧ Monomial fs ∧ x = times 1 fs

theorem rat?_times_of_notRat {fs : List Expr} (hr : ∀ f ∈ fs, f.rat? = none) (hne : fs ≠ []) (c : Rat) :
    (times c fs).rat? = none := by
  match fs with
  | [] => exact absurd rfl hne
  | [f] =>
    by_cases hc : c = 1
    · rw [hc, times_one_singleton]
      exact hr f (by simp)
    · rw [times_of_ne_one hc hne]
      rfl
  | f :: g :: fs =>
    by_cases hc : c = 1
    · rw [hc, times_one_cons_cons]
      rfl
    · rw [times_of_ne_one hc hne]
      rfl

theorem times_ne_rat {fs : List Expr} (h : Monomial fs) (hne : fs ≠ []) (c : Rat) :
    (times c fs).rat? = none :=
  rat?_times_of_notRat h.row.notRat hne c

theorem isSum_times_of_notLone {fs : List Expr} (hlone : ∀ ts, fs ≠ [add ts]) (c : Rat) : (times c fs).isSum = false := by
  match fs with
  | [] => simp [isSum]
  | [f] =>
    by_cases hc : c = 1
    · rw [hc, times_one_singleton]
      cases f with
      | add ts => exact absurd rfl (hlone ts)
      | _ => rfl
    · rw [times_of_ne_one hc (by simp)]
      rfl
  | f :: g :: fs =>
    by_cases hc : c = 1
    · rw [hc, times_one_cons_cons]
      rfl
    · rw [times_of_ne_one hc (by simp)]
      rfl

theorem times_notSum {fs : List Expr} (h : Monomial fs) (c : Rat) : (times c fs).isSum = false :=
  isSum_times_of_notLone h.notLone c

theorem IsRest.ne_one {x : Expr} (h : IsRest x) : x ≠ one := by
  obtain ⟨fs, hne, hfs, rfl⟩ := h
  intro heq
  have hr := times_ne_rat hfs hne 1
  simp [heq, one, rat?] at hr

/-- A coefficient before a rest makes a term, from which both can be told again. -/
structure TermOf (c : Rat) (x t : Expr) : Prop where
  canonical : Canonical t
  notSum : t.isSum = false
  notRat : t.rat? = none
  split : t.splitCoeff = (c, x)

theorem IsRest.withCoeff {x : Expr} (h : IsRest x) {c : Rat} (hc : c ≠ 0) :
    TermOf c x (withCoeff c x) := by
  obtain ⟨fs, hne, hfs, rfl⟩ := h
  rw [hfs.withCoeff_times]
  exact ⟨hfs.canonical_times hc, times_notSum hfs c, times_ne_rat hfs hne c, hfs.splitCoeff_times c⟩

/-- A term that is no rational is its coefficient before its rest. -/
theorem Canonical.term {t : Expr} (h : Canonical t) (hs : t.isSum = false) (hr : t.rat? = none) :
    IsRest t.splitCoeff.2 ∧ t.splitCoeff.1 ≠ 0 ∧
      Expr.withCoeff t.splitCoeff.1 t.splitCoeff.2 = t := by
  obtain ⟨c, fs, rfl, hfs, hc⟩ := h.monomial hs
  have hne : fs ≠ [] := by
    rintro rfl
    simp [rat?] at hr
  rw [hfs.splitCoeff_times]
  exact ⟨⟨fs, hne, hfs, rfl⟩, hc (isZero_of_rat?_eq_none hr), hfs.withCoeff_times c⟩

/-- A term that is its coefficient before its rest again, and whose coefficient is not zero. -/
structure Rejoins (t : Expr) : Prop where
  coeff_ne_zero : t.splitCoeff.1 ≠ 0
  join : withCoeff t.splitCoeff.1 t.splitCoeff.2 = t

theorem Canonical.rejoins {t : Expr} (h : Canonical t) (hs : t.isSum = false) (hr : t.rat? = none) : Rejoins t :=
  ⟨(h.term hs hr).2.1, (h.term hs hr).2.2⟩

theorem splitCoeff_rat (q : Rat) : (rat q).splitCoeff = (q, one) := rfl

/-- Sorting keeps the terms. -/
theorem termRow_sortTerms {ts : List Expr} (hsum : ∀ t ∈ ts, t.isSum = false) (hzero : ∀ t ∈ ts, t.isZero = false)
    (hrests : (ts.map fun t => t.splitCoeff.2).Nodup) : TermRow (sortTerms ts) :=
  have hperm : (sortTerms ts).Perm ts := List.mergeSort_perm _ _
  ⟨fun x hx => hsum x (hperm.mem_iff.1 hx), fun x hx => hzero x (hperm.mem_iff.1 hx),
    (hperm.map _).nodup_iff.2 hrests, sortTerms_sorted _⟩

/-- Terms with different rests make a canonical sum. -/
theorem canonical_ofTerms {ts : List Expr} (hts : ∀ t ∈ ts, Canonical t)
    (hsum : ∀ t ∈ ts, t.isSum = false) (hzero : ∀ t ∈ ts, t.isZero = false)
    (hrests : (ts.map fun t => t.splitCoeff.2).Nodup) : Canonical (ofTerms ts) := by
  match ts with
  | [] => exact .rat 0
  | [t] => exact hts t (by simp)
  | t :: u :: ts =>
    have hperm : (sortTerms (t :: u :: ts)).Perm (t :: u :: ts) := List.mergeSort_perm _ _
    exact .sum (fun x hx => hts x (hperm.mem_iff.1 hx)) (termRow_sortTerms hsum hzero hrests)
      (by simp [hperm.length_eq])

/-! ## Collecting terms -/

/-- Flattening leaves terms as they are that are no sums. -/
theorem flattenTerms_of_notSum {ts : List Expr} (h : ∀ t ∈ ts, t.isSum = false) :
    flattenTerms ts = ts := by
  fun_induction flattenTerms ts with
  | case1 => rfl
  | case2 ys xs => exact absurd (h (add ys) List.mem_cons_self) (by simp [isSum])
  | case3 x xs _ ih => rw [ih (List.forall_mem_cons.1 h).2]

theorem flattenTerms_canonical {ts : List Expr} (h : ∀ t ∈ ts, Canonical t) :
    ∀ t ∈ flattenTerms ts, Canonical t ∧ t.isSum = false := by
  refine flattenTerms_all (fun hy => ?_) h
  cases hy with
  | sum hys => exact hys

/-- Collected terms have rests, and no two have the same one. -/
structure TermGroups.Distinct (g : TermGroups) : Prop where
  noPos : g.hasPosInfinity = false
  noNeg : g.hasNegInfinity = false
  rests : ∀ p ∈ g.groups, IsRest p.1
  nodup : (g.groups.map Prod.fst).Nodup

theorem nodup_collectTerm (x : Expr) (c : Rat) {gs : List (Expr × Rat)}
    (h : (gs.map Prod.fst).Nodup) : ((collectTerm x c gs).map Prod.fst).Nodup := by
  induction gs with
  | nil => simp [collectTerm]
  | cons g gs ih =>
    obtain ⟨y, d⟩ := g
    rw [List.map_cons, List.nodup_cons] at h
    simp only [collectTerm]
    split
    · simpa using h
    · rename_i hne
      rw [List.map_cons, List.nodup_cons]
      refine ⟨fun hmem => ?_, ih h.2⟩
      obtain ⟨g, hg, hgy⟩ := List.mem_map.1 hmem
      rcases mem_collectTerm hg with heq | ⟨g', hg', heq⟩
      · exact hne (hgy.symm.trans heq)
      · exact h.1 (List.mem_map.2 ⟨g', hg', heq.trans hgy⟩)

/-- No rest is collected twice. -/
theorem TermGroups.nodup_insertAll (ts : List Expr) {g : TermGroups} (h : (g.groups.map Prod.fst).Nodup) :
    ((ts.foldl TermGroups.insert g).groups.map Prod.fst).Nodup := by
  induction ts generalizing g with
  | nil => exact h
  | cons t ts ih =>
    refine ih ?_
    unfold TermGroups.insert
    split
    · exact h
    · split
      · split <;> exact h
      · exact nodup_collectTerm _ _ h

theorem TermGroups.Distinct.insert {g : TermGroups} (hg : g.Distinct) {t : Expr} (ht : Canonical t)
    (hs : t.isSum = false) : (g.insert t).Distinct := by
  unfold TermGroups.insert
  split
  · exact ⟨hg.noPos, hg.noNeg, hg.rests, hg.nodup⟩
  · rename_i hrat
    have hr : t.rat? = none := by
      cases t with
      | rat q => exact absurd rfl (hrat q)
      | _ => rfl
    rw [ht.infinitySign?]
    refine ⟨hg.noPos, hg.noNeg, fun p hp => ?_, nodup_collectTerm _ _ hg.nodup⟩
    rcases mem_collectTerm hp with heq | ⟨p', hp', heq⟩
    · exact heq ▸ (ht.term hs hr).1
    · exact heq ▸ hg.rests p' hp'

theorem TermGroups.Distinct.foldl {g : TermGroups} (hg : g.Distinct) {ts : List Expr}
    (hts : ∀ t ∈ ts, Canonical t ∧ t.isSum = false) : (ts.foldl TermGroups.insert g).Distinct := by
  induction ts generalizing g with
  | nil => exact hg
  | cons t ts ih =>
    obtain ⟨ht, hts⟩ := List.forall_mem_cons.1 hts
    exact ih (hg.insert ht.1 ht.2) hts

theorem TermGroups.distinct_empty : TermGroups.empty.Distinct := ⟨rfl, rfl, by simp [empty], by simp [empty]⟩

/-- A sum of canonical expressions has no infinite terms. -/
theorem sum_of_canonical {ts : List Expr} (h : ∀ t ∈ ts, Canonical t) :
    sum ts = ofTerms ((flattenTerms ts).foldl TermGroups.insert TermGroups.empty).allTerms :=
  sum_of_finite fun t ht =>
    have hcanonical := (flattenTerms_canonical h t ht).1
    ⟨hcanonical.ne_undefined, hcanonical.infinitySign?⟩

/-- Terms with different rests keep them. -/
theorem nodup_rests_keptTerms {gs : List (Expr × Rat)}
    (hrests : ∀ p ∈ gs, ∀ c ≠ 0, (withCoeff c p.1).splitCoeff.2 = p.1) (hnodup : (gs.map Prod.fst).Nodup) :
    ((keptTerms gs).map fun t => t.splitCoeff.2).Nodup := by
  have hmap : (keptTerms gs).map (fun t => t.splitCoeff.2) = (gs.filter fun g => g.2 ≠ 0).map Prod.fst := by
    rw [keptTerms, List.map_map]
    refine List.map_congr_left fun g hg => ?_
    obtain ⟨hg, hc⟩ := List.mem_filter.1 hg
    exact hrests g hg g.2 (by simpa using hc)
  rw [hmap]
  exact hnodup.sublist ((List.filter_sublist (l := gs)).map Prod.fst)

/-- The terms that do not cancel. -/
theorem keptTerms_terms {gs : List (Expr × Rat)} (hrests : ∀ p ∈ gs, IsRest p.1)
    (hnodup : (gs.map Prod.fst).Nodup) :
    (∀ t ∈ keptTerms gs, Canonical t ∧ t.isSum = false ∧ t.rat? = none ∧ t.splitCoeff.2 ≠ one) ∧
      ((keptTerms gs).map fun t => t.splitCoeff.2).Nodup := by
  refine ⟨fun t ht => ?_, nodup_rests_keptTerms (fun p hp c hc => ?_) hnodup⟩
  · obtain ⟨g, hg, rfl⟩ := List.mem_map.1 ht
    obtain ⟨hg, hc⟩ := List.mem_filter.1 hg
    have h := (hrests g hg).withCoeff (c := g.2) (by simpa using hc)
    refine ⟨h.canonical, h.notSum, h.notRat, ?_⟩
    rw [h.split]
    exact (hrests g hg).ne_one
  · rw [((hrests p hp).withCoeff hc).split]

/-- The terms of a sum make a canonical sum. -/
theorem TermGroups.Distinct.allTerms {g : TermGroups} (hg : g.Distinct) :
    (∀ t ∈ g.allTerms, Canonical t ∧ t.isSum = false ∧ t.isZero = false) ∧
      (g.allTerms.map fun t => t.splitCoeff.2).Nodup := by
  obtain ⟨hkept, hnodup⟩ := keptTerms_terms hg.rests hg.nodup
  have hterms : ∀ t ∈ keptTerms g.groups, Canonical t ∧ t.isSum = false ∧ t.isZero = false :=
    fun t ht => ⟨(hkept t ht).1, (hkept t ht).2.1, isZero_of_rat?_eq_none (hkept t ht).2.2.1⟩
  rw [TermGroups.allTerms]
  split
  · rename_i hc
    refine ⟨List.forall_mem_append.2 ⟨hterms, ?_⟩, ?_⟩
    · simpa [isZero, isSum, hc] using Canonical.rat g.constant
    · rw [List.map_append, List.nodup_append]
      refine ⟨hnodup, by simp, ?_⟩
      intro x hx y hy heq
      obtain ⟨t, ht, rfl⟩ := List.mem_map.1 hx
      obtain rfl : y = one := by simpa [splitCoeff_rat] using hy
      exact (hkept t ht).2.2.2 heq
  · rw [List.append_nil]
    exact ⟨hterms, hnodup⟩

/-- The sum of canonical expressions is canonical. -/
theorem sum_canonical {ts : List Expr} (h : ∀ t ∈ ts, Canonical t) : Canonical (sum ts) := by
  have hg := TermGroups.distinct_empty.foldl (flattenTerms_canonical h)
  rw [sum_of_canonical h]
  obtain ⟨hterms, hnodup⟩ := hg.allTerms
  exact canonical_ofTerms (fun t ht => (hterms t ht).1) (fun t ht => (hterms t ht).2.1)
    (fun t ht => (hterms t ht).2.2) hnodup

/-! ## The terms of a canonical sum -/

theorem collectTerm_of_notMem {x : Expr} {c : Rat} {gs : List (Expr × Rat)} (h : x ∉ gs.map Prod.fst) :
    collectTerm x c gs = gs ++ [(x, c)] := by
  induction gs with
  | nil => rfl
  | cons g gs ih =>
    obtain ⟨y, d⟩ := g
    simp only [List.map_cons, List.mem_cons, not_or] at h
    rw [collectTerm, if_neg (Ne.symm h.1), ih h.2]
    rfl

/-- A coefficient and a rest, for a term that is no rational. -/
def asGroup (t : Expr) : Expr × Rat := (t.splitCoeff.2, t.splitCoeff.1)

/-- Terms with new rests are collected as they come. -/
theorem foldl_insert_terms {ts : List Expr} (hts : ∀ t ∈ ts, t.infinitySign? = none ∧ t.rat? = none)
    {g : TermGroups} (hnodup : (g.groups.map Prod.fst ++ ts.map fun t => t.splitCoeff.2).Nodup) :
    ts.foldl TermGroups.insert g = { g with groups := g.groups ++ ts.map asGroup } := by
  induction ts generalizing g with
  | nil => simp
  | cons t ts ih =>
    obtain ⟨⟨hinf, hr⟩, hts⟩ := List.forall_mem_cons.1 hts
    have hnew : t.splitCoeff.2 ∉ g.groups.map Prod.fst := by
      rw [List.map_cons, List.nodup_append] at hnodup
      exact fun hmem => hnodup.2.2 _ hmem _ (List.mem_cons_self) rfl
    have hinsert : g.insert t = { g with groups := g.groups ++ [asGroup t] } := by
      unfold TermGroups.insert
      split
      · simp [rat?] at hr
      · rw [hinf, collectTerm_of_notMem hnew]
        rfl
    rw [List.foldl_cons, hinsert, ih hts]
    · simp
    · simpa [asGroup] using hnodup

theorem keptTerms_asGroup {ts : List Expr} (hts : ∀ t ∈ ts, Rejoins t) : keptTerms (ts.map asGroup) = ts := by
  induction ts with
  | nil => rfl
  | cons t ts ih =>
    obtain ⟨⟨hc, ht⟩, hts⟩ := List.forall_mem_cons.1 hts
    rw [List.map_cons, keptTerms_cons, ih hts, asGroup, if_neg hc, ht]

theorem termPlace_of_finite {t : Expr} (hinf : t.infinitySign? = none) (hr : t.rat? = none) : t.termPlace = 0 := by
  unfold termPlace
  split
  · simp [rat?] at hr
  · rw [hinf]
    rfl

/-- In a sorted row of finite terms the only rational stands last. -/
theorem TermRow.split {ts : List Expr} (h : TermRow ts) (hts : ∀ t ∈ ts, t.infinitySign? = none) :
    ∃ us, (∀ t ∈ us, t.rat? = none) ∧ (ts = us ∨ ∃ q, q ≠ 0 ∧ ts = us ++ [rat q]) := by
  obtain ⟨-, hzero, hrests, hsorted⟩ := h
  induction ts with
  | nil => exact ⟨[], by simp, .inl rfl⟩
  | cons t ts ih =>
    have hfinite := (List.forall_mem_cons.1 hts).2
    obtain ⟨htzero, hzero⟩ := List.forall_mem_cons.1 hzero
    obtain ⟨hfirst, hsorted⟩ := List.pairwise_cons.1 hsorted
    rw [List.map_cons, List.nodup_cons] at hrests
    cases hr : t.rat? with
    | none =>
      obtain ⟨us, hus, hsplit⟩ := ih hfinite hzero hrests.2 hsorted
      refine ⟨t :: us, List.forall_mem_cons.2 ⟨hr, hus⟩, ?_⟩
      rcases hsplit with rfl | ⟨q, hq, rfl⟩
      · exact .inl rfl
      · exact .inr ⟨q, hq, rfl⟩
    | some q =>
      obtain rfl := eq_rat_of_rat? hr
      have hnil : ts = [] := by
        cases ts with
        | nil => rfl
        | cons u ts =>
          -- the next term is another rational, which has the same rest, or stands at an earlier place
          exfalso
          cases hu : u.rat? with
          | some p =>
            obtain rfl := eq_rat_of_rat? hu
            exact hrests.1 (List.mem_cons_self)
          | none =>
            have hle := hfirst u List.mem_cons_self
            rw [compareTerms, termPlace_of_finite (hfinite u List.mem_cons_self) hu] at hle
            exact absurd hle Bool.false_ne_true
      subst hnil
      exact ⟨[], by simp, .inr ⟨q, by simpa [isZero] using htzero, rfl⟩⟩

theorem ofTerms_of_length {ts : List Expr} (h : 2 ≤ ts.length) : ofTerms ts = add (sortTerms ts) := by
  obtain ⟨t, us, rfl⟩ := List.exists_cons_of_length_pos (by omega : 0 < ts.length)
  cases us with
  | nil => simp at h
  | cons u us => rfl

/-- The sum of the terms of a sum is that sum. -/
theorem TermRow.sum_eq {ts : List Expr} (h : TermRow ts) (hu : ∀ t ∈ ts, t ≠ undefined)
    (hinf : ∀ t ∈ ts, t.infinitySign? = none) (hjoin : ∀ t ∈ ts, t.rat? = none → Rejoins t) (hlen : 2 ≤ ts.length) :
    sum ts = add ts := by
  obtain ⟨us, hus, hsplit⟩ := h.split hinf
  have hflat := flattenTerms_of_notSum h.notSum
  have hall : (ts.foldl TermGroups.insert TermGroups.empty).allTerms = ts := by
    have hmem : ∀ t ∈ us, t ∈ ts := by
      rcases hsplit with rfl | ⟨q, hq, rfl⟩
      · exact fun t ht => ht
      · exact fun t ht => List.mem_append_left _ ht
    have hnodup : (us.map fun t => t.splitCoeff.2).Nodup := by
      rcases hsplit with rfl | ⟨q, hq, rfl⟩
      · exact h.rests
      · exact (List.nodup_append.1 (List.map_append ▸ h.rests)).1
    have hkept := keptTerms_asGroup fun t ht => hjoin t (hmem t ht) (hus t ht)
    have hfold := foldl_insert_terms (fun t ht => ⟨hinf t (hmem t ht), hus t ht⟩) (g := TermGroups.empty)
      (by simpa [TermGroups.empty] using hnodup)
    rcases hsplit with rfl | ⟨q, hq, rfl⟩
    · rw [hfold]
      simpa [TermGroups.allTerms, TermGroups.empty] using hkept
    · rw [List.foldl_append, hfold]
      simpa [TermGroups.allTerms, TermGroups.empty, TermGroups.insert, hq] using hkept
  rw [sum_of_finite fun t ht => ⟨hu t (hflat ▸ ht), hinf t (hflat ▸ ht)⟩, hflat, hall, ofTerms_of_length hlen,
    sortTerms_of_sorted h.sorted]

/-- The sum of the terms of a canonical sum is that sum. -/
theorem sum_terms {ts : List Expr} (hts : ∀ t ∈ ts, Canonical t) (hrow : TermRow ts)
    (hlen : 2 ≤ ts.length) : sum ts = add ts :=
  hrow.sum_eq (fun t ht => (hts t ht).ne_undefined) (fun t ht => (hts t ht).infinitySign?)
    (fun t ht hr => (hts t ht).rejoins (hrow.notSum t ht) hr) hlen

end SymbolicSolver.Expr
