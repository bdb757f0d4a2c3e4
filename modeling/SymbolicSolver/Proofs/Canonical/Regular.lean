import SymbolicSolver.Proofs.Canonical.FormSum

/-!
# The invariant of canonical trees

What every tree satisfies that sums, products, powers and applications build. The undefined value occurs only as the
whole tree. A sum has two terms or more, none of them a sum or zero, with different rests behind their coefficients and
in order. A product has two factors or more, none of them a product: possibly a coefficient in front, then factors in
order, then possibly infinity; and it never is a coefficient before a lone sum. A power has an exponent other than zero
and one, and a base other than one.

Unlike the canonical forms of rational expressions, this leaves open which factors could still be put together, and so
it holds of roots, infinities and powers that stand unevaluated as well. As there, a tree that is no sum consists of a
coefficient and a row of factors, and a sum is built term by term from the two.
-/

namespace SymbolicSolver.Expr

/-! ## The invariant -/

/-- The terms of a sum. -/
structure RegularTerms (ts : List Expr) : Prop extends TermRow ts where
  twoTerms : 2 ≤ ts.length
  oneRat : (ts.filter fun t => t.rat?.isSome).length ≤ 1

/-- The factors of a product. -/
structure RegularFactors (fs : List Expr) : Prop where
  twoFactors : 2 ≤ fs.length
  notProduct : ∀ f ∈ fs, f.isProduct = false
  coeff : ∀ q, fs.head? = some (rat q) → q ≠ 0 ∧ q ≠ 1
  ratFirst : ∀ f ∈ fs.tail, f.rat? = none
  infinityLast : infinity ∉ fs.dropLast
  sorted : SortedBy compareFactors (plainFactors fs)
  notSpread : ∀ q ts, fs ≠ [rat q, add ts]

mutual

/-- The tree is defined, and its nodes are as canonical operations leave them. -/
def Regular : Expr → Prop
  | undefined => False
  | add ts => RegularTerms ts ∧ AllRegular ts
  | mul fs => RegularFactors fs ∧ AllRegular fs
  | pow b x => (x.isZero = false ∧ x.isOne = false ∧ b.isOne = false) ∧ Regular b ∧ Regular x
  | fn _ x => Regular x
  | _ => True

/-- The trees of a list are regular. -/
def AllRegular : List Expr → Prop
  | [] => True
  | x :: xs => Regular x ∧ AllRegular xs

end

/-- The undefined value as a whole, or a regular tree. -/
def WellFormed (x : Expr) : Prop := x = undefined ∨ Regular x

variable {x t : Expr} {ts fs : List Expr}

theorem allRegular_iff (xs : List Expr) : AllRegular xs ↔ ∀ x ∈ xs, Regular x := by
  induction xs with
  | nil => simp [AllRegular]
  | cons x xs ih => simp [AllRegular, ih]

theorem regular_add : Regular (add ts) ↔ RegularTerms ts ∧ ∀ t ∈ ts, Regular t := by
  rw [← allRegular_iff]
  rfl

theorem regular_mul : Regular (mul fs) ↔ RegularFactors fs ∧ ∀ f ∈ fs, Regular f := by
  rw [← allRegular_iff]
  rfl

example : ¬ Regular (mul [rat 2, add [var "x", rat 1]]) := fun h => (regular_mul.1 h).1.notSpread 2 _ rfl

@[simp] theorem regular_rat (q : Rat) : Regular (rat q) := trivial

theorem Regular.wellFormed (h : Regular x) : WellFormed x := .inr h

theorem wellFormed_undefined : WellFormed undefined := .inl rfl

theorem WellFormed.regular (h : WellFormed x) (hx : x ≠ undefined) : Regular x := h.resolve_left hx

/-! ## Coefficient and factors -/

/-- The factors of a product behind its coefficient. -/
structure RegularRow (fs : List Expr) : Prop where
  regular : ∀ f ∈ fs, Regular f
  notRat : ∀ f ∈ fs, f.rat? = none
  notProduct : ∀ f ∈ fs, f.isProduct = false
  infinityLast : infinity ∉ fs.dropLast
  sorted : SortedBy compareFactors (plainFactors fs)

theorem RegularRow.nil : RegularRow [] :=
  ⟨by simp, by simp, by simp, by simp, .nil⟩

theorem RegularRow.singleton (hx : Regular x) (hr : x.rat? = none) (hp : x.isProduct = false) : RegularRow [x] :=
  ⟨by simpa using hx, by simpa using hr, by simpa using hp, by simp, (List.pairwise_singleton _ x).filter _⟩

theorem RegularRow.product (h : RegularRow fs) (hlen : 2 ≤ fs.length) : RegularFactors fs where
  twoFactors := hlen
  notProduct := h.notProduct
  coeff q hq := by cases h.notRat _ (List.mem_of_head? hq)
  ratFirst f hf := h.notRat f (List.mem_of_mem_tail hf)
  infinityLast := h.infinityLast
  sorted := h.sorted
  notSpread q ts hfs := by cases h.notRat (rat q) (by simp [hfs])

theorem RegularRow.scaled (h : RegularRow fs) {c : Rat} (hc0 : c ≠ 0) (hc1 : c ≠ 1) (hne : fs ≠ [])
    (hlone : ∀ ts, fs ≠ [add ts]) : RegularFactors (rat c :: fs) where
  twoFactors := by
    have := List.length_pos_iff.2 hne
    rw [List.length_cons]
    omega
  notProduct := List.forall_mem_cons.2 ⟨rfl, h.notProduct⟩
  coeff q hq := by
    obtain rfl : c = q := by simpa using hq
    exact ⟨hc0, hc1⟩
  ratFirst := h.notRat
  infinityLast := by
    rw [List.dropLast_cons_of_ne_nil hne]
    simpa using h.infinityLast
  sorted := by simpa [plainFactors, rat?] using h.sorted
  notSpread q ts hfs := hlone ts (List.cons.inj hfs).2

/-- A product is a row of factors, possibly behind a coefficient. -/
theorem RegularFactors.cases (h : RegularFactors fs) (hfs : ∀ f ∈ fs, Regular f) :
    RegularRow fs ∨ ∃ c gs, fs = rat c :: gs ∧ c ≠ 0 ∧ c ≠ 1 ∧ gs ≠ [] ∧ RegularRow gs ∧ ∀ ts, gs ≠ [add ts] := by
  obtain ⟨f, g, gs, rfl⟩ : ∃ f g gs, fs = f :: g :: gs := by
    match fs, h.twoFactors with
    | f :: g :: gs, _ => exact ⟨f, g, gs, rfl⟩
  cases hr : f.rat? with
  | none => exact .inl ⟨hfs, List.forall_mem_cons.2 ⟨hr, h.ratFirst⟩, h.notProduct, h.infinityLast, h.sorted⟩
  | some c =>
    obtain rfl := eq_rat_of_rat? hr
    obtain ⟨hc0, hc1⟩ := h.coeff c rfl
    refine .inr ⟨c, g :: gs, rfl, hc0, hc1, by simp, ⟨?_, h.ratFirst, ?_, ?_, ?_⟩, ?_⟩
    · exact (List.forall_mem_cons.1 hfs).2
    · exact (List.forall_mem_cons.1 h.notProduct).2
    · exact fun hmem => h.infinityLast (List.mem_cons_of_mem _ hmem)
    · simpa [plainFactors, rat?] using h.sorted
    · rintro ts hts
      exact h.notSpread c ts (by rw [hts])

theorem RegularRow.times (h : RegularRow fs) {c : Rat} (hc : c ≠ 0) (hlone : c = 1 ∨ ∀ ts, fs ≠ [add ts]) :
    Regular (times c fs) := by
  by_cases hc1 : c = 1
  · subst hc1
    match fs with
    | [] => simp
    | [f] => simpa using h.regular f
    | f :: g :: gs =>
      rw [times_one_cons_cons]
      exact regular_mul.2 ⟨h.product (by simp), h.regular⟩
  · by_cases hne : fs = []
    · simp [hne]
    · rw [times_of_ne_one hc1 hne]
      exact regular_mul.2 ⟨h.scaled hc hc1 hne (hlone.resolve_left hc1),
        List.forall_mem_cons.2 ⟨regular_rat c, h.regular⟩⟩

/-- A regular tree other than a sum consists of a coefficient and a row of factors. -/
theorem Regular.row (h : Regular x) (hs : x.isSum = false) :
    ∃ c fs, x = Expr.times c fs ∧ RegularRow fs ∧ (∀ ts, fs ≠ [add ts]) ∧ (x.isZero = false → c ≠ 0) := by
  by_cases hp : x.isProduct = true
  · cases x with
    | mul fs =>
      obtain ⟨hfs, hregular⟩ := regular_mul.1 h
      rcases hfs.cases hregular with hrow | ⟨c, gs, rfl, hc0, hc1, hne, hrow, hlone⟩
      · refine ⟨1, fs, (times_one_of_length hfs.twoFactors).symm, hrow, ?_, fun _ => one_ne_zero⟩
        rintro ts rfl
        simpa using hfs.twoFactors
      · exact ⟨c, gs, (times_of_ne_one hc1 hne).symm, hrow, hlone, fun _ => hc0⟩
    | _ => cases hp
  · have hp : x.isProduct = false := by simpa using hp
    cases hr : x.rat? with
    | some q =>
      obtain rfl := eq_rat_of_rat? hr
      exact ⟨q, [], (times_nil q).symm, .nil, by simp, by simp [isZero]⟩
    | none =>
      refine ⟨1, [x], (times_one_singleton x).symm, .singleton h hr hp, ?_, fun _ => one_ne_zero⟩
      rintro ts hts
      obtain rfl := (List.cons.inj hts).1
      cases hs

/-! ## Terms -/

/-- What stands behind the coefficient of a term that is neither rational nor infinite. -/
def RegularRest (x : Expr) : Prop :=
  ∃ fs, fs ≠ [] ∧ RegularRow fs ∧ (∀ ts, fs ≠ [add ts]) ∧ fs ≠ [infinity] ∧ x = times 1 fs

/-- The rest of a term is regular. -/
theorem Regular.splitCoeff (h : Regular x) : Regular x.splitCoeff.2 := by
  by_cases hs : x.isSum = true
  · cases x with
    | add ts => exact h
    | _ => cases hs
  · obtain ⟨c, fs, rfl, hrow, hlone, -⟩ := h.row (by simpa using hs)
    rw [splitCoeff_times hrow.notRat hrow.notProduct]
    exact hrow.times one_ne_zero (.inl rfl)

theorem Regular.rest (h : Regular t) (hs : t.isSum = false) (hr : t.rat? = none) (hinf : t.infinitySign? = none) :
    RegularRest t.splitCoeff.2 := by
  obtain ⟨c, fs, rfl, hrow, hlone, hzero⟩ := h.row hs
  have hc : c ≠ 0 := hzero (isZero_of_rat?_eq_none hr)
  rw [splitCoeff_times hrow.notRat hrow.notProduct]
  refine ⟨fs, ?_, hrow, hlone, ?_, rfl⟩
  · rintro rfl
    simp [rat?] at hr
  · rintro rfl
    by_cases hc1 : c = 1
    · simp [hc1, infinitySign?] at hinf
    · rw [times_of_ne_one hc1 (by simp)] at hinf
      rcases lt_or_gt_of_ne hc with hlt | hgt
      · simp [infinitySign?, hlt] at hinf
      · simp [infinitySign?, hgt, hgt.not_gt] at hinf

namespace RegularRest

variable {c : Rat}

theorem withCoeff_eq (h : RegularRest x) (hc : c ≠ 0) : Regular (withCoeff c x) ∧ (withCoeff c x).isSum = false ∧
    (withCoeff c x).rat? = none ∧ (withCoeff c x).splitCoeff.2 = x := by
  obtain ⟨fs, hne, hrow, hlone, -, rfl⟩ := h
  rw [withCoeff_times hrow.notRat hrow.notProduct, splitCoeff_times hrow.notRat hrow.notProduct]
  exact ⟨hrow.times hc (.inr hlone), isSum_times_of_notLone hlone c, rat?_times_of_notRat hrow.notRat hne c, rfl⟩

theorem ne_one (h : RegularRest x) : x ≠ one := by
  obtain ⟨fs, hne, hrow, -, -, rfl⟩ := h
  intro heq
  simpa [heq, one, rat?] using rat?_times_of_notRat hrow.notRat hne 1

theorem ne_infinity (h : RegularRest x) : x ≠ infinity := by
  obtain ⟨fs, hne, hrow, -, hinf, rfl⟩ := h
  match fs with
  | [] => exact absurd rfl hne
  | [f] => simpa using hinf
  | f :: g :: gs => simp

end RegularRest

/-! ## Sums -/

/-- Only one term is rational if the rests are different. -/
theorem length_filter_rat_le_one (h : (ts.map fun t => t.splitCoeff.2).Nodup) :
    (ts.filter fun t => t.rat?.isSome).length ≤ 1 := by
  have hone : (ts.filter fun t => t.rat?.isSome).map (fun t => t.splitCoeff.2) =
      List.replicate (ts.filter fun t => t.rat?.isSome).length one := by
    refine List.eq_replicate_iff.2 ⟨List.length_map _, fun x hx => ?_⟩
    obtain ⟨t, ht, rfl⟩ := List.mem_map.1 hx
    obtain ⟨q, hq⟩ := Option.isSome_iff_exists.1 (List.mem_filter.1 ht).2
    rw [eq_rat_of_rat? hq, splitCoeff_rat]
  exact List.nodup_replicate.1 (hone ▸ h.sublist (List.filter_sublist.map _))

/-- Terms with different rests make a regular sum. -/
theorem regular_ofTerms (hts : ∀ t ∈ ts, Regular t) (hsum : ∀ t ∈ ts, t.isSum = false)
    (hzero : ∀ t ∈ ts, t.isZero = false) (hrests : (ts.map fun t => t.splitCoeff.2).Nodup) : Regular (ofTerms ts) := by
  match ts with
  | [] => exact regular_rat 0
  | [t] => exact hts t (by simp)
  | t :: u :: ts =>
    have hperm : (sortTerms (t :: u :: ts)).Perm (t :: u :: ts) := List.mergeSort_perm _ _
    have hrow := termRow_sortTerms hsum hzero hrests
    exact regular_add.2 ⟨⟨hrow, by simp [hperm.length_eq], length_filter_rat_le_one hrow.rests⟩,
      fun x hx => hts x (hperm.mem_iff.1 hx)⟩

/-- A rational or an infinity may join terms with rests. -/
theorem regular_ofTerms_concat (hts : ∀ t ∈ ts, Regular t ∧ t.isSum = false ∧ t.rat? = none)
    (hrests : (ts.map fun t => t.splitCoeff.2).Nodup) (hx : Regular x) (hs : x.isSum = false) (hz : x.isZero = false)
    (hnew : ∀ t ∈ ts, t.splitCoeff.2 ≠ x.splitCoeff.2) : Regular (ofTerms (ts ++ [x])) := by
  refine regular_ofTerms ?_ ?_ ?_ ?_
  · exact List.forall_mem_append.2 ⟨fun t ht => (hts t ht).1, by simpa using hx⟩
  · exact List.forall_mem_append.2 ⟨fun t ht => (hts t ht).2.1, by simpa using hs⟩
  · exact List.forall_mem_append.2 ⟨fun t ht => isZero_of_rat?_eq_none (hts t ht).2.2, by simpa using hz⟩
  · rw [List.map_append, List.nodup_append]
    refine ⟨hrests, by simp, fun r hr s hs => ?_⟩
    obtain ⟨t, ht, rfl⟩ := List.mem_map.1 hr
    obtain rfl := List.mem_singleton.1 hs
    exact hnew t ht

theorem flattenTerms_wellFormed (h : ∀ t ∈ ts, WellFormed t) :
    ∀ t ∈ flattenTerms ts, WellFormed t ∧ t.isSum = false :=
  flattenTerms_all (fun hy t ht => ((regular_add.1 (hy.regular (by simp))).2 t ht).wellFormed) h

/-- The terms that do not cancel are regular, and their rests are those that were collected. -/
theorem keptTerms_regular {gs : List (Expr × Rat)} (hrests : ∀ p ∈ gs, RegularRest p.1)
    (hnodup : (gs.map Prod.fst).Nodup) :
    (∀ t ∈ keptTerms gs, Regular t ∧ t.isSum = false ∧ t.rat? = none) ∧
      (∀ t ∈ keptTerms gs, RegularRest t.splitCoeff.2) ∧ ((keptTerms gs).map fun t => t.splitCoeff.2).Nodup := by
  have hterm : ∀ t ∈ keptTerms gs, (Regular t ∧ t.isSum = false ∧ t.rat? = none) ∧ RegularRest t.splitCoeff.2 := by
    intro t ht
    simp only [keptTerms, List.mem_map, List.mem_filter] at ht
    obtain ⟨g, ⟨hg, hc⟩, rfl⟩ := ht
    obtain ⟨hreg, hs, hr, hrest⟩ := (hrests g hg).withCoeff_eq (c := g.2) (by simpa using hc)
    exact ⟨⟨hreg, hs, hr⟩, hrest.symm ▸ hrests g hg⟩
  exact ⟨fun t ht => (hterm t ht).1, fun t ht => (hterm t ht).2,
    nodup_rests_keptTerms (fun p hp c hc => ((hrests p hp).withCoeff_eq hc).2.2.2) hnodup⟩

theorem regular_negInfinity : Regular negInfinity :=
  regular_mul.2 ⟨(RegularRow.singleton (x := infinity) trivial rfl rfl).scaled (c := -1) (by norm_num) (by norm_num)
    (by simp) (by simp), by simp [Regular]⟩

theorem sum_wellFormed (h : ∀ t ∈ ts, WellFormed t) : WellFormed (sum ts) := by
  have hflat := flattenTerms_wellFormed h
  simp only [sum]
  split
  · exact wellFormed_undefined
  rename_i hany
  have hregular : ∀ t ∈ flattenTerms ts, Regular t := fun t ht =>
    (hflat t ht).1.regular fun heq => hany (List.any_eq_true.2 ⟨t, ht, by simpa using heq⟩)
  have hrests := TermGroups.rests_insertAll (Q := RegularRest)
    (fun t ht hr hinf => (hregular t ht).rest (hflat t ht).2 hr hinf) (g := .empty) (by simp [TermGroups.empty])
  have hnodup := TermGroups.nodup_insertAll (flattenTerms ts) (g := .empty) (by simp [TermGroups.empty])
  generalize (flattenTerms ts).foldl TermGroups.insert TermGroups.empty = parts at hrests hnodup ⊢
  obtain ⟨hterms, hrest, hdistinct⟩ := keptTerms_regular hrests hnodup
  rw [keptTerms] at hterms hrest hdistinct
  split
  · -- infinities of both signs
    exact wellFormed_undefined
  · split
    · split
      · split
        · exact Regular.wellFormed trivial
        · exact regular_negInfinity.wellFormed
      · refine Regular.wellFormed ?_
        split
        · exact regular_ofTerms_concat hterms hdistinct trivial rfl rfl fun t ht => (hrest t ht).ne_infinity
        · exact regular_ofTerms_concat hterms hdistinct regular_negInfinity rfl rfl fun t ht => (hrest t ht).ne_infinity
    · refine Regular.wellFormed ?_
      split
      · rename_i hc
        exact regular_ofTerms_concat hterms hdistinct (regular_rat _) rfl (by simpa [isZero] using hc)
          fun t ht => (hrest t ht).ne_one
      · exact regular_ofTerms (fun t ht => (hterms t ht).1) (fun t ht => (hterms t ht).2.1)
          (fun t ht => isZero_of_rat?_eq_none (hterms t ht).2.2) hdistinct

end SymbolicSolver.Expr
