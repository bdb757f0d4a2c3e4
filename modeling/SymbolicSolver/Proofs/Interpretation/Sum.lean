import SymbolicSolver.Proofs.Interpretation.Basic

/-!
# Sums keep values

A transformation keeps the value of an expression in an algebra if its result is defined wherever the expression is,
with the same value there. The canonical sum keeps the value of a sum in every algebra over the rationals.
-/

namespace SymbolicSolver.Interpretation

open Expr

variable {A : Type*} [CommRing A] [Algebra ℚ A] {I : Interpretation A}

/-! ## Keeping values -/

/-- If `x` is defined, then so is `y`, with the same value. -/
def Keeps (I : Interpretation A) (x y : Expr) : Prop := I.Defined x → I.Defined y ∧ I.eval y = I.eval x

namespace Keeps

theorem refl (I : Interpretation A) (x : Expr) : I.Keeps x x := fun h => ⟨h, rfl⟩

theorem trans {x y z : Expr} (hxy : I.Keeps x y) (hyz : I.Keeps y z) : I.Keeps x z := by
  intro hx
  obtain ⟨hy, hvy⟩ := hxy hx
  obtain ⟨hz, hvz⟩ := hyz hy
  exact ⟨hz, hvz.trans hvy⟩

/-- Operands that keep their values one by one keep the product. -/
theorem mul_cons {x y : Expr} {xs ys : List Expr} (h : I.Keeps x y) (hs : I.Keeps (mul xs) (mul ys)) :
    I.Keeps (mul (x :: xs)) (mul (y :: ys)) := by
  intro hd
  rw [defined_mul_cons] at hd ⊢
  obtain ⟨hy, hvy⟩ := h hd.1
  obtain ⟨hys, hvys⟩ := hs hd.2
  exact ⟨⟨hy, hys⟩, by rw [eval_mul_cons, eval_mul_cons, hvy, hvys]⟩

theorem mul_append {xs xs' ys ys' : List Expr} (hx : I.Keeps (mul xs) (mul xs')) (hy : I.Keeps (mul ys) (mul ys')) :
    I.Keeps (mul (xs ++ ys)) (mul (xs' ++ ys')) := by
  intro hd
  rw [defined_mul_append] at hd ⊢
  obtain ⟨hdx, hvx⟩ := hx hd.1
  obtain ⟨hdy, hvy⟩ := hy hd.2
  exact ⟨⟨hdx, hdy⟩, by rw [eval_mul_append, eval_mul_append, hvx, hvy]⟩

theorem mul_perm {xs ys : List Expr} (h : xs.Perm ys) : I.Keeps (mul xs) (mul ys) := by
  intro hd
  rw [defined_mul] at hd ⊢
  exact ⟨fun y hy => hd y (h.mem_iff.2 hy), by rw [eval_mul, eval_mul, (h.map I.eval).prod_eq]⟩

theorem mul_one (xs : List Expr) : I.Keeps (mul xs) (mul (xs ++ [rat 1])) := by
  intro hd
  exact ⟨(defined_mul_append _ _).2 ⟨hd, by simp⟩, by simp⟩

/-- The factors of an inner product may stand in its place. -/
theorem mul_flatten (xs ys : List Expr) : I.Keeps (mul (mul xs :: ys)) (mul (xs ++ ys)) := by
  intro hd
  rw [defined_mul_cons] at hd
  exact ⟨(defined_mul_append _ _).2 hd, by rw [eval_mul_cons, eval_mul_append]⟩

/-- Two rationals may be multiplied. -/
theorem mul_rat_rat (p q : ℚ) (xs : List Expr) :
    I.Keeps (mul (rat p :: rat q :: xs)) (mul (rat (p * q) :: xs)) := by
  intro hd
  simp only [defined_mul_cons, eval_mul_cons, eval_rat, map_mul] at hd ⊢
  exact ⟨⟨defined_rat _, hd.2.2⟩, by ring⟩

end Keeps

/-! ## Flattening -/

theorem defined_flattenTerms (ts : List Expr) :
    (∀ t ∈ flattenTerms ts, I.Defined t) ↔ ∀ t ∈ ts, I.Defined t := by
  fun_induction flattenTerms ts with
  | case1 => simp
  | case2 ys xs ihy ihx =>
    simp only [List.mem_append, or_imp, forall_and, ihy, ihx, List.forall_mem_cons, defined_add]
  | case3 x xs _ ih => simp only [List.forall_mem_cons, ih]

theorem sum_flattenTerms (ts : List Expr) : ((flattenTerms ts).map I.eval).sum = (ts.map I.eval).sum := by
  fun_induction flattenTerms ts with
  | case1 => rfl
  | case2 ys xs ihy ihx => simp [ihy, ihx]
  | case3 x xs _ ih => simp [ih]

/-! ## Coefficients -/

theorem Defined.infinitySign?_eq_none {x : Expr} (h : I.Defined x) : x.infinitySign? = none := by
  unfold infinitySign?
  split
  · simp at h
  · simp at h
  · rfl

@[simp] theorem eval_ofFactors (fs : List Expr) : I.eval (ofFactors fs) = (fs.map I.eval).prod := by
  unfold ofFactors
  split <;> simp

@[simp] theorem defined_ofFactors (fs : List Expr) : I.Defined (ofFactors fs) ↔ ∀ f ∈ fs, I.Defined f := by
  unfold ofFactors
  split <;> simp

theorem Defined.splitCoeff {x : Expr} (h : I.Defined x) :
    I.Defined x.splitCoeff.2 ∧ algebraMap ℚ A x.splitCoeff.1 * I.eval x.splitCoeff.2 = I.eval x := by
  unfold Expr.splitCoeff
  split
  · simp [one]
  · rename_i q fs
    simp only [defined_mul, List.forall_mem_cons] at h
    exact ⟨by simpa using h.2, by simp⟩
  · exact ⟨h, by simp⟩

theorem eval_withCoeff (c : ℚ) {x : Expr} (h : I.Defined x) :
    I.Defined (withCoeff c x) ∧ I.eval (withCoeff c x) = algebraMap ℚ A c * I.eval x := by
  unfold withCoeff
  split
  · rename_i h1
    cases x <;> simp_all [isOne]
  · split
    · rename_i hc
      exact ⟨h, by rw [hc, map_one, one_mul]⟩
    · cases x <;> simp_all

/-! ## Collecting terms -/

/-- The value of collected terms, each with its coefficient. -/
noncomputable def groupsValue (I : Interpretation A) (gs : List (Expr × ℚ)) : A :=
  (gs.map fun g => algebraMap ℚ A g.2 * I.eval g.1).sum

@[simp] theorem groupsValue_nil : I.groupsValue [] = 0 := rfl

@[simp] theorem groupsValue_cons (g : Expr × ℚ) (gs : List (Expr × ℚ)) :
    I.groupsValue (g :: gs) = algebraMap ℚ A g.2 * I.eval g.1 + I.groupsValue gs := by
  simp [groupsValue]

theorem groupsValue_collectTerm (rest : Expr) (c : ℚ) (gs : List (Expr × ℚ)) :
    I.groupsValue (collectTerm rest c gs) = I.groupsValue gs + algebraMap ℚ A c * I.eval rest :=
  sum_map_collectTerm (f := fun x d => algebraMap ℚ A d * I.eval x) (fun _ _ _ => by rw [map_add, add_mul]) rest c gs

/-- The value of the rational part and the collected terms together. -/
noncomputable def partsValue (I : Interpretation A) (g : TermGroups) : A :=
  algebraMap ℚ A g.constant + I.groupsValue g.groups

/-- No infinity has come up, and what the coefficients multiply has a value. -/
structure Valued (I : Interpretation A) (g : TermGroups) : Prop where
  noPos : g.hasPosInfinity = false
  noNeg : g.hasNegInfinity = false
  defined : ∀ p ∈ g.groups, I.Defined p.1

theorem valued_empty : I.Valued .empty := ⟨rfl, rfl, by simp [TermGroups.empty]⟩

theorem Valued.insert {g : TermGroups} (hg : I.Valued g) {t : Expr} (ht : I.Defined t) :
    I.Valued (g.insert t) ∧ I.partsValue (g.insert t) = I.partsValue g + I.eval t := by
  unfold TermGroups.insert
  split
  · refine ⟨⟨hg.noPos, hg.noNeg, hg.defined⟩, ?_⟩
    simp only [partsValue, eval_rat, map_add]
    ring
  · simp only [ht.infinitySign?_eq_none]
    obtain ⟨hrest, hv⟩ := ht.splitCoeff
    refine ⟨⟨hg.noPos, hg.noNeg, ?_⟩, ?_⟩
    · intro p hp
      rcases mem_collectTerm hp with h | ⟨p', hp', he⟩
      · rwa [h]
      · exact he ▸ hg.defined p' hp'
    · simp only [partsValue, groupsValue_collectTerm, hv]
      ring

theorem Valued.insertAll {ts : List Expr} (hts : ∀ t ∈ ts, I.Defined t) {g : TermGroups} (hg : I.Valued g) :
    I.Valued (ts.foldl TermGroups.insert g) ∧
      I.partsValue (ts.foldl TermGroups.insert g) = I.partsValue g + (ts.map I.eval).sum := by
  induction ts generalizing g with
  | nil => exact ⟨hg, by simp⟩
  | cons t ts ih =>
    obtain ⟨ht, hts⟩ := List.forall_mem_cons.1 hts
    obtain ⟨hi, hvi⟩ := hg.insert ht
    obtain ⟨hf, hvf⟩ := ih hts hi
    refine ⟨hf, ?_⟩
    simp only [List.foldl_cons, List.map_cons, List.sum_cons, hvf, hvi]
    ring

/-! ## Putting the terms together -/

@[simp] theorem eval_ofTerms (ts : List Expr) : I.eval (ofTerms ts) = (ts.map I.eval).sum := by
  unfold ofTerms
  split
  · simp [zero]
  · simp
  · rw [eval_add]
    exact ((List.mergeSort_perm ts _).map I.eval).sum_eq

@[simp] theorem defined_ofTerms (ts : List Expr) : I.Defined (ofTerms ts) ↔ ∀ t ∈ ts, I.Defined t := by
  unfold ofTerms
  split
  · simp [zero]
  · simp
  · simp [sortTerms]

theorem defined_keptTerms {gs : List (Expr × ℚ)} (h : ∀ g ∈ gs, I.Defined g.1) :
    ∀ t ∈ keptTerms gs, I.Defined t := by
  intro t ht
  obtain ⟨g, hg, -, rfl⟩ := mem_keptTerms.1 ht
  exact (eval_withCoeff g.2 (h g hg)).1

theorem sum_keptTerms {gs : List (Expr × ℚ)} (h : ∀ g ∈ gs, I.Defined g.1) :
    ((keptTerms gs).map I.eval).sum = I.groupsValue gs := by
  induction gs with
  | nil => rfl
  | cons g gs ih =>
    obtain ⟨hg, hgs⟩ := List.forall_mem_cons.1 h
    rw [keptTerms_cons, groupsValue_cons]
    split
    · rename_i hc
      rw [ih hgs, hc, map_zero, zero_mul, zero_add]
    · rw [List.map_cons, List.sum_cons, (eval_withCoeff g.2 hg).2, ih hgs]

/-- A sum of expressions that have values, written without the cases for infinities. -/
theorem sum_of_defined {ts : List Expr} (h : ∀ t ∈ ts, I.Defined t) :
    sum ts =
      let parts := (flattenTerms ts).foldl TermGroups.insert TermGroups.empty
      ofTerms (keptTerms parts.groups ++ if parts.constant ≠ 0 then [rat parts.constant] else []) := by
  have hflat := (defined_flattenTerms ts).2 h
  exact sum_of_finite fun t ht => ⟨(hflat t ht).ne_undefined, (hflat t ht).infinitySign?_eq_none⟩

/-- A canonical sum has the value of the sum. -/
theorem keeps_sum (I : Interpretation A) (ts : List Expr) : I.Keeps (add ts) (sum ts) := by
  intro h
  rw [defined_add] at h
  have hflat := (defined_flattenTerms ts).2 h
  obtain ⟨hv, hsum⟩ := valued_empty.insertAll hflat
  rw [sum_flattenTerms] at hsum
  rw [sum_of_defined h]
  generalize (flattenTerms ts).foldl TermGroups.insert TermGroups.empty = parts at hv hsum
  have hkept := defined_keptTerms hv.defined
  constructor
  · rw [defined_ofTerms]
    intro t ht
    rcases List.mem_append.mp ht with ht | ht
    · exact hkept t ht
    · split at ht <;> simp_all
  · rw [eval_ofTerms, List.map_append, List.sum_append, sum_keptTerms hv.defined, eval_add]
    simp only [partsValue, TermGroups.empty, groupsValue_nil, map_zero, zero_add] at hsum
    rw [← hsum, add_comm]
    split
    · simp
    · rename_i hc
      simp only [ne_eq, not_not] at hc
      simp [hc]

end SymbolicSolver.Interpretation
