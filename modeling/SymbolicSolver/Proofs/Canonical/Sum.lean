import SymbolicSolver.Proofs.Value

/-!
# The value of a canonical sum

Flattening, collecting terms by what their coefficients multiply, dropping the terms that cancel and sorting
do not change the value of a sum. The main statement is `sum_keepsValue`.
-/

namespace SymbolicSolver.Expr

variable {r : Reading}

/-! ## Flattening -/

/-- What holds of the operands and goes from a sum to its terms holds of the flat terms, and none of them is a sum. -/
theorem flattenTerms_all {Q : Expr → Prop} (hadd : ∀ {ys}, Q (add ys) → ∀ y ∈ ys, Q y) {ts : List Expr}
    (h : ∀ t ∈ ts, Q t) : ∀ t ∈ flattenTerms ts, Q t ∧ t.isSum = false := by
  fun_induction flattenTerms ts with
  | case1 => simp
  | case2 ys xs ihy ihx =>
    obtain ⟨hy, hx⟩ := List.forall_mem_cons.1 h
    exact List.forall_mem_append.2 ⟨ihy (hadd hy), ihx hx⟩
  | case3 x xs hnot ih =>
    obtain ⟨hx, hxs⟩ := List.forall_mem_cons.1 h
    refine List.forall_mem_cons.2 ⟨⟨hx, ?_⟩, ih hxs⟩
    cases x with
    | add ys => exact absurd rfl (hnot ys)
    | _ => rfl

theorem flattenTerms_append (xs ys : List Expr) : flattenTerms (xs ++ ys) = flattenTerms xs ++ flattenTerms ys := by
  fun_induction flattenTerms xs with
  | case1 => rfl
  | case2 us xs ihu ihx => simp only [List.cons_append, flattenTerms, ihx, List.append_assoc]
  | case3 x xs hx ih => rw [List.cons_append, flattenTerms.eq_3 _ _ hx, ih, List.cons_append]

theorem terms_of_notSum {x : Expr} (h : x.isSum = false) : x.terms = [x] := by
  cases x with
  | add ts => cases h
  | _ => rfl

theorem flattenTerms_defined (ts : List Expr) :
    (∀ t ∈ flattenTerms ts, Defined r t) ↔ ∀ t ∈ ts, Defined r t := by
  fun_induction flattenTerms ts with
  | case1 => simp
  | case2 ys xs ihy ihx =>
    simp only [List.mem_append, or_imp, forall_and, ihy, ihx, List.forall_mem_cons, defined_add]
  | case3 x xs _ ih => simp only [List.forall_mem_cons, ih]

theorem flattenTerms_sum (ts : List Expr) :
    ((flattenTerms ts).map (eval r)).sum = (ts.map (eval r)).sum := by
  fun_induction flattenTerms ts with
  | case1 => rfl
  | case2 ys xs ihy ihx => simp [ihy, ihx]
  | case3 x xs _ ih => simp [ih]

/-! ## Coefficients -/

theorem Defined.infinitySign?_eq_none {x : Expr} (h : Defined r x) : x.infinitySign? = none := by
  unfold infinitySign?
  split
  · simp at h
  · simp at h
  · rfl

@[simp] theorem eval_ofFactors (fs : List Expr) :
    eval r (ofFactors fs) = (fs.map (eval r)).prod := by
  unfold ofFactors
  split <;> simp

@[simp] theorem defined_ofFactors (fs : List Expr) :
    Defined r (ofFactors fs) ↔ ∀ f ∈ fs, Defined r f := by
  unfold ofFactors
  split <;> simp

theorem Defined.splitCoeff {x : Expr} (h : Defined r x) :
    Defined r x.splitCoeff.2 ∧ x.splitCoeff.1 * eval r x.splitCoeff.2 = eval r x := by
  unfold Expr.splitCoeff
  split
  · simp [one]
  · rename_i q fs
    simp only [defined_mul, List.forall_mem_cons] at h
    exact ⟨by simpa using h.2, by simp⟩
  · exact ⟨h, by simp⟩

theorem eval_withCoeff (c : Rat) {x : Expr} (h : Defined r x) :
    Defined r (withCoeff c x) ∧ eval r (withCoeff c x) = c * eval r x := by
  unfold withCoeff
  split
  · rename_i h1
    cases x <;> simp_all [isOne]
  · split
    · rename_i hc
      exact ⟨h, by rw [hc, one_mul]⟩
    · cases x <;> simp_all

/-! ## Collecting terms -/

/-- The value of collected terms, each with its coefficient. -/
def groupsValue (r : Reading) (gs : List (Expr × Rat)) : Rat :=
  (gs.map fun g => g.2 * eval r g.1).sum

@[simp] theorem groupsValue_nil : groupsValue r [] = 0 := rfl

@[simp] theorem groupsValue_cons (g : Expr × Rat) (gs : List (Expr × Rat)) :
    groupsValue r (g :: gs) = g.2 * eval r g.1 + groupsValue r gs := by
  simp [groupsValue]

/-- What is additive in the coefficients adds up over collected terms. -/
theorem sum_map_collectTerm {M : Type*} [AddCommMonoid M] {f : Expr → Rat → M}
    (hf : ∀ x c d, f x (c + d) = f x c + f x d) (rest : Expr) (c : Rat) (gs : List (Expr × Rat)) :
    ((collectTerm rest c gs).map fun g => f g.1 g.2).sum = (gs.map fun g => f g.1 g.2).sum + f rest c := by
  induction gs with
  | nil => simp [collectTerm]
  | cons g gs ih =>
    obtain ⟨x, d⟩ := g
    rw [collectTerm]
    split
    · rename_i heq
      rw [List.map_cons, List.sum_cons, List.map_cons, List.sum_cons, hf, heq]
      exact add_right_comm _ _ _
    · rw [List.map_cons, List.sum_cons, ih, List.map_cons, List.sum_cons, add_assoc]

theorem groupsValue_collectTerm (rest : Expr) (c : Rat) (gs : List (Expr × Rat)) :
    groupsValue r (collectTerm rest c gs) = groupsValue r gs + c * eval r rest :=
  sum_map_collectTerm (f := fun x c => c * eval r x) (fun _ _ _ => add_mul _ _ _) rest c gs

/-- The coefficients that go with one rest, added up. -/
def coefficientOf (rest : Expr) (gs : List (Expr × Rat)) : Rat := (gs.map fun g => if g.1 = rest then g.2 else 0).sum

@[simp] theorem coefficientOf_nil (rest : Expr) : coefficientOf rest [] = 0 := rfl

theorem coefficientOf_cons (rest : Expr) (g : Expr × Rat) (gs : List (Expr × Rat)) :
    coefficientOf rest (g :: gs) = (if g.1 = rest then g.2 else 0) + coefficientOf rest gs := by
  rw [coefficientOf, List.map_cons, List.sum_cons]
  rfl

theorem coefficientOf_append (rest : Expr) (gs hs : List (Expr × Rat)) :
    coefficientOf rest (gs ++ hs) = coefficientOf rest gs + coefficientOf rest hs := by
  simp [coefficientOf]

theorem coefficientOf_collectTerm (rest x : Expr) (c : Rat) (gs : List (Expr × Rat)) :
    coefficientOf rest (collectTerm x c gs) = coefficientOf rest gs + if x = rest then c else 0 :=
  sum_map_collectTerm (f := fun x c => if x = rest then c else 0) (fun x c d => by split <;> simp) x c gs

theorem coefficientOf_eq_zero {rest : Expr} {gs : List (Expr × Rat)} (h : rest ∉ gs.map Prod.fst) :
    coefficientOf rest gs = 0 := by
  refine List.sum_eq_zero fun c hc => ?_
  obtain ⟨g, hg, rfl⟩ := List.mem_map.1 hc
  exact if_neg fun heq => h (List.mem_map.2 ⟨g, hg, heq⟩)

/-- Where the rests are different, each has the coefficient that stands with it. -/
theorem coefficientOf_of_mem {gs : List (Expr × Rat)} (h : (gs.map Prod.fst).Nodup) {g : Expr × Rat} (hg : g ∈ gs) :
    coefficientOf g.1 gs = g.2 := by
  induction gs with
  | nil => cases hg
  | cons p gs ih =>
    rw [List.map_cons, List.nodup_cons] at h
    rw [coefficientOf_cons]
    rcases List.mem_cons.1 hg with rfl | hg
    · rw [if_pos rfl, coefficientOf_eq_zero h.1, add_zero]
    · have hne : p.1 ≠ g.1 := fun heq => h.1 (heq ▸ List.mem_map_of_mem hg)
      rw [if_neg hne, ih h.2 hg, zero_add]

theorem mem_collectTerm {rest : Expr} {c : Rat} {gs : List (Expr × Rat)} {g : Expr × Rat}
    (h : g ∈ collectTerm rest c gs) : g.1 = rest ∨ ∃ g' ∈ gs, g'.1 = g.1 := by
  induction gs with
  | nil =>
    simp only [collectTerm, List.mem_singleton] at h
    exact .inl (by rw [h])
  | cons g' gs ih =>
    obtain ⟨x, d⟩ := g'
    simp only [collectTerm] at h
    split at h
    · rename_i hx
      rcases List.mem_cons.mp h with rfl | h
      · exact .inl hx
      · exact .inr ⟨g, by simp [h], rfl⟩
    · rcases List.mem_cons.mp h with rfl | h
      · exact .inr ⟨(x, d), by simp, rfl⟩
      · rcases ih h with h | ⟨g', hg', he⟩
        · exact .inl h
        · exact .inr ⟨g', by simp [hg'], he⟩

/-- The terms that are neither rationals nor bare infinities. -/
def plainTerms (ts : List Expr) : List Expr := ts.filter fun t => t.rat?.isNone && t.infinitySign?.isNone

theorem mem_plainTerms {t : Expr} {ts : List Expr} : t ∈ plainTerms ts ↔ t ∈ ts ∧ t.rat? = none ∧ t.infinitySign? = none := by
  simp [plainTerms]

theorem infinitySign?_cases (t : Expr) : t.infinitySign? = none ∨ t.infinitySign? = some 1 ∨ t.infinitySign? = some (-1) := by
  unfold infinitySign?
  split
  · exact .inr (.inl rfl)
  · split_ifs <;> simp
  · exact .inl rfl

namespace TermGroups

/-- A term that is not rational is noted by its sign if it is a bare infinity, and collected otherwise. -/
theorem insert_of_notRat (g : TermGroups) {t : Expr} (hr : t.rat? = none) :
    (∀ s, t.infinitySign? = some s → g.insert t =
      if 0 < s then { g with hasPosInfinity := true } else { g with hasNegInfinity := true }) ∧
      (t.infinitySign? = none → g.insert t =
        { g with groups := collectTerm t.splitCoeff.2 t.splitCoeff.1 g.groups }) := by
  unfold insert
  split
  · cases hr
  · exact ⟨fun s hs => by rw [hs], fun hs => by rw [hs]⟩

/-- What holds of the rests of the terms holds of the rests that are collected. -/
theorem rests_insertAll {Q : Expr → Prop} {ts : List Expr}
    (hts : ∀ t ∈ ts, t.rat? = none → t.infinitySign? = none → Q t.splitCoeff.2)
    {g : TermGroups} (hg : ∀ p ∈ g.groups, Q p.1) : ∀ p ∈ (ts.foldl insert g).groups, Q p.1 := by
  induction ts generalizing g with
  | nil => exact hg
  | cons t ts ih =>
    obtain ⟨ht, hts⟩ := List.forall_mem_cons.1 hts
    refine ih hts ?_
    cases hr : t.rat? with
    | some q =>
      cases t with
      | rat p => exact hg
      | _ => cases hr
    | none =>
      obtain ⟨hinfinite, hplain⟩ := g.insert_of_notRat hr
      cases hs : t.infinitySign? with
      | some s =>
        rw [hinfinite s hs]
        split <;> exact hg
      | none =>
        rw [hplain hs]
        intro p hp
        rcases mem_collectTerm hp with h | ⟨p', hp', he⟩
        · exact h ▸ ht hr hs
        · exact he ▸ hg p' hp'

/-- Rationals are added up, bare infinities noted by their sign, and the other terms collected. -/
theorem insertAll_parts (ts : List Expr) (g : TermGroups) : ts.foldl insert g =
    ⟨g.constant + (ts.filterMap rat?).sum, g.hasPosInfinity || ts.any (·.infinitySign? = some 1),
      g.hasNegInfinity || ts.any (·.infinitySign? = some (-1)),
      (plainTerms ts).foldl (fun gs t => collectTerm t.splitCoeff.2 t.splitCoeff.1 gs) g.groups⟩ := by
  induction ts generalizing g with
  | nil => simp [plainTerms]
  | cons t ts ih =>
    rw [List.foldl_cons, ih]
    cases hr : t.rat? with
    | some q =>
      cases t with
      | rat p => simp [insert, plainTerms, infinitySign?, rat?, add_assoc]
      | _ => cases hr
    | none =>
      obtain ⟨hinfinite, hplain⟩ := g.insert_of_notRat hr
      rcases infinitySign?_cases t with hs | hs | hs
      · simp [hplain hs, plainTerms, hs, hr]
      · simp [hinfinite 1 hs, plainTerms, hs, hr]
      · simp [hinfinite (-1) hs, plainTerms, hs, hr]

/-- The value of the rational part and the collected terms together. -/
def value (r : Reading) (g : TermGroups) : Rat := g.constant + groupsValue r g.groups

/-- No infinity has come up, and what the coefficients multiply has a value. -/
structure Valued (r : Reading) (g : TermGroups) : Prop where
  noPos : g.hasPosInfinity = false
  noNeg : g.hasNegInfinity = false
  defined : ∀ p ∈ g.groups, Defined r p.1

theorem empty_valued : Valued r empty := ⟨rfl, rfl, by simp [empty]⟩

theorem insert_valued {g : TermGroups} (hg : g.Valued r) {t : Expr} (ht : Defined r t) :
    (g.insert t).Valued r ∧ (g.insert t).value r = g.value r + eval r t := by
  unfold insert
  split
  · rename_i q
    refine ⟨⟨hg.noPos, hg.noNeg, hg.defined⟩, ?_⟩
    simp only [value, eval_rat]
    ring
  · simp only [ht.infinitySign?_eq_none]
    obtain ⟨hrest, hv⟩ := ht.splitCoeff
    refine ⟨⟨hg.noPos, hg.noNeg, ?_⟩, ?_⟩
    · intro p hp
      rcases mem_collectTerm hp with h | ⟨p', hp', he⟩
      · rwa [h]
      · exact he ▸ hg.defined p' hp'
    · simp only [value, groupsValue_collectTerm, hv]
      ring

theorem foldl_insert_valued {ts : List Expr} (hts : ∀ t ∈ ts, Defined r t) {g : TermGroups}
    (hg : g.Valued r) : (ts.foldl insert g).Valued r ∧
      (ts.foldl insert g).value r = g.value r + (ts.map (eval r)).sum := by
  induction ts generalizing g with
  | nil => exact ⟨hg, by simp⟩
  | cons t ts ih =>
    obtain ⟨ht, hts⟩ := List.forall_mem_cons.1 hts
    obtain ⟨hi, hvi⟩ := insert_valued hg ht
    obtain ⟨hf, hvf⟩ := ih hts hi
    refine ⟨hf, ?_⟩
    simp only [List.foldl_cons, List.map_cons, List.sum_cons, hvf, hvi]
    ring

end TermGroups

/-! ## Putting the terms together -/

@[simp] theorem eval_ofTerms (ts : List Expr) : eval r (ofTerms ts) = (ts.map (eval r)).sum := by
  unfold ofTerms
  split
  · simp [zero]
  · simp
  · rw [eval_add]
    exact ((List.mergeSort_perm ts _).map (eval r)).sum_eq

@[simp] theorem defined_ofTerms (ts : List Expr) :
    Defined r (ofTerms ts) ↔ ∀ t ∈ ts, Defined r t := by
  unfold ofTerms
  split
  · simp [zero]
  · simp
  · simp [sortTerms]

/-- The terms that do not cancel, each with its coefficient. -/
def keptTerms (gs : List (Expr × Rat)) : List Expr :=
  (gs.filter fun g => g.2 ≠ 0).map fun g => withCoeff g.2 g.1

theorem keptTerms_cons (g : Expr × Rat) (gs : List (Expr × Rat)) :
    keptTerms (g :: gs) = if g.2 = 0 then keptTerms gs else withCoeff g.2 g.1 :: keptTerms gs := by
  by_cases hc : g.2 = 0 <;> simp [keptTerms, hc]

theorem mem_keptTerms {u : Expr} {gs : List (Expr × ℚ)} : u ∈ keptTerms gs ↔ ∃ p ∈ gs, p.2 ≠ 0 ∧ withCoeff p.2 p.1 = u := by
  simp [keptTerms, and_assoc]

/-- What the parts of a sum make. -/
def TermGroups.total (g : TermGroups) : Expr :=
  if g.hasPosInfinity && g.hasNegInfinity then undefined
  else if g.hasPosInfinity || g.hasNegInfinity then
    let inf := if g.hasPosInfinity then infinity else negInfinity
    if (keptTerms g.groups).all fun t => t.isConstant && t.isFinite then inf else ofTerms (keptTerms g.groups ++ [inf])
  else if g.constant ≠ 0 then ofTerms (keptTerms g.groups ++ [rat g.constant])
  else ofTerms (keptTerms g.groups)

theorem sum_eq_total {ts : List Expr} (h : ∀ t ∈ flattenTerms ts, t ≠ undefined) :
    sum ts = ((flattenTerms ts).foldl TermGroups.insert .empty).total := by
  have hdefined : (flattenTerms ts).any (· = undefined) = false := by
    simp only [List.any_eq_false, decide_eq_true_eq]
    exact h
  simp only [sum, hdefined, Bool.false_eq_true, if_false]
  rfl

/-- The terms of a sum, the rational one last. -/
def TermGroups.allTerms (g : TermGroups) : List Expr :=
  keptTerms g.groups ++ if g.constant ≠ 0 then [rat g.constant] else []

theorem TermGroups.total_of_finite {g : TermGroups} (hpos : g.hasPosInfinity = false) (hneg : g.hasNegInfinity = false) :
    g.total = ofTerms g.allTerms := by
  simp only [total, allTerms, hpos, hneg, Bool.and_self, Bool.or_self, Bool.false_eq_true, if_false]
  split <;> simp

/-- A sum without undefined or infinite terms has no case for them. -/
theorem sum_of_finite {ts : List Expr} (h : ∀ t ∈ flattenTerms ts, t ≠ undefined ∧ t.infinitySign? = none) :
    sum ts = ofTerms ((flattenTerms ts).foldl TermGroups.insert .empty).allTerms := by
  have hsign (s : Int) : (flattenTerms ts).any (·.infinitySign? = some s) = false := by
    simp only [List.any_eq_false, decide_eq_true_eq]
    intro t ht hs
    rw [(h t ht).2] at hs
    cases hs
  rw [sum_eq_total fun t ht => (h t ht).1]
  refine TermGroups.total_of_finite ?_ ?_
  · simp only [TermGroups.insertAll_parts, hsign, TermGroups.empty, Bool.or_self]
  · simp only [TermGroups.insertAll_parts, hsign, TermGroups.empty, Bool.or_self]

theorem keptTerms_defined {gs : List (Expr × Rat)} (h : ∀ g ∈ gs, Defined r g.1) :
    ∀ t ∈ keptTerms gs, Defined r t := by
  intro t ht
  obtain ⟨g, hg, -, rfl⟩ := mem_keptTerms.1 ht
  exact (eval_withCoeff g.2 (h g hg)).1

theorem keptTerms_sum {gs : List (Expr × Rat)} (h : ∀ g ∈ gs, Defined r g.1) :
    ((keptTerms gs).map (eval r)).sum = groupsValue r gs := by
  induction gs with
  | nil => rfl
  | cons g gs ih =>
    obtain ⟨hg, hgs⟩ := List.forall_mem_cons.1 h
    rw [keptTerms_cons, groupsValue_cons]
    split
    · rename_i hc
      rw [ih hgs, hc, zero_mul, zero_add]
    · rw [List.map_cons, List.sum_cons, (eval_withCoeff g.2 hg).2, ih hgs]

/-- A sum of expressions that have values, written without the cases for infinities. -/
theorem sum_of_defined {ts : List Expr} (h : ∀ t ∈ ts, Defined r t) :
    sum ts =
      let parts := (flattenTerms ts).foldl TermGroups.insert TermGroups.empty
      ofTerms (keptTerms parts.groups ++ if parts.constant ≠ 0 then [rat parts.constant] else []) := by
  have hflat := (flattenTerms_defined ts).2 h
  exact sum_of_finite fun t ht => ⟨(hflat t ht).ne_undefined, (hflat t ht).infinitySign?_eq_none⟩

/-- A canonical sum has the value of the sum. -/
theorem sum_keepsValue (r : Reading) (ts : List Expr) : KeepsValue r (add ts) (sum ts) := by
  intro h
  rw [defined_add] at h
  have hflat := (flattenTerms_defined ts).2 h
  obtain ⟨hv, hsum⟩ := TermGroups.foldl_insert_valued hflat TermGroups.empty_valued
  rw [flattenTerms_sum] at hsum
  rw [sum_of_defined h]
  generalize (flattenTerms ts).foldl TermGroups.insert TermGroups.empty = parts at hv hsum
  have hkept := keptTerms_defined hv.defined
  constructor
  · rw [defined_ofTerms]
    intro t ht
    rcases List.mem_append.mp ht with ht | ht
    · exact hkept t ht
    · split at ht <;> simp_all
  · rw [eval_ofTerms, List.map_append, List.sum_append, keptTerms_sum hv.defined, eval_add]
    simp only [TermGroups.value, TermGroups.empty, groupsValue_nil] at hsum
    split
    · simp only [List.map_cons, List.map_nil, List.sum_singleton, eval_rat]
      linarith
    · rename_i hc
      simp only [ne_eq, not_not] at hc
      simp only [List.map_nil, List.sum_nil]
      linarith

end SymbolicSolver.Expr
