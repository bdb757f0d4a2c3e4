import Mathlib.Algebra.Group.Pi.Basic
import SymbolicSolver.Proofs.Canonical.Constructed
import SymbolicSolver.Proofs.Canonical.Key

/-!
# Sums as linear combinations

Terms that differ in their coefficient only are collected, so a sum is a linear combination of what stands behind the
coefficients of its flat terms, a rational being a multiple of one. The combination of a canonical sum is that of its
operands together, and a regular tree can be told from its combination: its terms are the nonzero coefficients before
what they multiply, and they can be sorted in one way only. Two sums with one combination are therefore one tree, and
neither the order of the operands matters nor how they are put together.
-/

namespace SymbolicSolver.Expr

open Token (IsName)

variable {x y t : Expr} {xs ys ts us : List Expr}

/-! ## Ordinary trees -/

/-- Regular trees without infinities whose variables have names. -/
structure Ordinary (x : Expr) : Prop where
  regular : Regular x
  noInfinity : x.contains infinity = false
  names : VarsIn IsName x

theorem Ordinary.ne_undefined (h : Ordinary x) : x ≠ undefined := by
  rintro rfl
  exact h.regular

theorem Ordinary.infinitySign? (h : Ordinary x) : x.infinitySign? = none := by
  by_contra hne
  obtain ⟨s, hs⟩ := Option.ne_none_iff_exists'.1 hne
  have hinf := compositional_noInfinity.infinity_of_sign h.noInfinity hs
  simp [contains, exist] at hinf

theorem ordinary_rat (q : Rat) : Ordinary (rat q) := ⟨regular_rat q, compositional_noInfinity.rat q, trivial⟩

theorem Ordinary.terms (h : Ordinary (add ts)) : ∀ t ∈ ts, Ordinary t := fun t ht =>
  ⟨(regular_add.1 h.regular).2 t ht, (compositional_noInfinity.add ts).1 h.noInfinity t ht,
    (hereditary_varsIn.add ts).1 h.names t ht⟩

theorem flattenTerms_ordinary (h : ∀ x ∈ xs, Ordinary x) : ∀ t ∈ flattenTerms xs, Ordinary t ∧ t.isSum = false :=
  flattenTerms_all Ordinary.terms h

/-! ## Combinations -/

/-- The coefficients of the flat terms of a sum, by what they multiply. -/
def combination (xs : List Expr) (r : Expr) : Rat := coefficientOf r ((flattenTerms xs).map asGroup)

theorem combination_append (xs ys : List Expr) : combination (xs ++ ys) = combination xs + combination ys := by
  funext r
  rw [combination, flattenTerms_append, List.map_append, coefficientOf_append]
  rfl

theorem combination_cons (x : Expr) (xs : List Expr) : combination (x :: xs) = combination [x] + combination xs :=
  combination_append [x] xs

theorem combination_perm (h : xs.Perm ys) : combination xs = combination ys := by
  induction h with
  | nil => rfl
  | cons x _ ih => rw [combination_cons, ih, ← combination_cons]
  | swap x y xs =>
    rw [combination_cons y, combination_cons x xs, combination_cons x (y :: xs), combination_cons y xs]
    exact add_left_comm _ _ _
  | trans _ _ ih ih' => exact ih.trans ih'

theorem combination_of_notSum (h : ∀ t ∈ ts, t.isSum = false) (r : Expr) :
    combination ts r = coefficientOf r (ts.map asGroup) := by
  rw [combination, flattenTerms_of_notSum h]

@[simp] theorem combination_nil : combination [] = 0 := by
  funext r
  rw [combination_of_notSum (by simp)]
  rfl

theorem combination_zero : combination [zero] = 0 := by
  funext r
  rw [combination_of_notSum (by simp [zero, isSum])]
  simp [asGroup, zero, splitCoeff_rat, coefficientOf_cons]

@[simp] theorem combination_sum_node (ts : List Expr) : combination [add ts] = combination ts := by
  funext r
  simp [combination, flattenTerms]

theorem combination_ofTerms (h : ∀ t ∈ ts, t.isSum = false) : combination [ofTerms ts] = combination ts := by
  match ts with
  | [] => rw [ofTerms, combination_zero, combination_nil]
  | [t] => rfl
  | t :: u :: ts =>
    rw [ofTerms, combination_sum_node]
    · exact combination_perm (List.mergeSort_perm _ _)
    · simp
    · simp

/-! ## Telling terms from a combination -/

/-- A term is its coefficient before what it multiplies. -/
theorem Regular.withCoeff_splitCoeff (h : Regular t) (hs : t.isSum = false) :
    withCoeff t.splitCoeff.1 t.splitCoeff.2 = t ∧ (t.isZero = false → t.splitCoeff.1 ≠ 0) := by
  obtain ⟨c, fs, rfl, hrow, -, hc⟩ := h.row hs
  rw [splitCoeff_times hrow.notRat hrow.notProduct]
  exact ⟨withCoeff_times hrow.notRat hrow.notProduct c, hc⟩

theorem combination_eq_zero {r : Expr} (hsum : ∀ t ∈ ts, t.isSum = false) (h : r ∉ ts.map fun t => t.splitCoeff.2) :
    combination ts r = 0 := by
  rw [combination_of_notSum hsum]
  exact coefficientOf_eq_zero (by rwa [List.map_map])

/-- Where what is multiplied differs from term to term, the combination has the coefficients of the terms. -/
theorem combination_of_mem (hsum : ∀ t ∈ ts, t.isSum = false) (hrests : (ts.map fun t => t.splitCoeff.2).Nodup)
    (ht : t ∈ ts) : combination ts t.splitCoeff.2 = t.splitCoeff.1 := by
  rw [combination_of_notSum hsum]
  exact coefficientOf_of_mem (g := asGroup t) (by rwa [List.map_map]) (List.mem_map_of_mem ht)

/-- The terms of a tree; zero has none. -/
def summands (x : Expr) : List Expr := if x.isZero then [] else x.terms

/-- The terms of a regular tree stand in a row, and the tree is made of them. -/
theorem Regular.summands (h : Regular x) : TermRow x.summands ∧ (∀ t ∈ x.summands, Regular t) ∧
    ofTerms x.summands = x ∧ combination x.summands = combination [x] := by
  by_cases hs : x.isSum = true
  · cases x with
    | add ts =>
      obtain ⟨hts, hregular⟩ := regular_add.1 h
      refine ⟨hts.toTermRow, hregular, ?_, (combination_sum_node ts).symm⟩
      change ofTerms ts = add ts
      rw [ofTerms_of_length hts.twoTerms, sortTerms_of_sorted hts.sorted]
    | _ => cases hs
  · rw [Bool.not_eq_true] at hs
    by_cases hz : x.isZero = true
    · obtain rfl : x = zero := by
        cases x with
        | rat q =>
          have hq : q = 0 := by simpa [isZero] using hz
          rw [hq, zero]
        | _ => cases hz
      rw [Expr.summands, if_pos hz, combination_zero]
      exact ⟨⟨by simp, by simp, by simp, .nil⟩, by simp, rfl, combination_nil⟩
    · rw [Expr.summands, if_neg hz, terms_of_notSum hs]
      exact ⟨⟨by simpa using hs, by simpa using hz, by simp, List.pairwise_singleton _ _⟩, by simpa using h, rfl, rfl⟩

theorem summands_names (h : VarsIn IsName x) : ∀ t ∈ x.summands, VarsIn IsName t := by
  rw [summands]
  split
  · simp
  · cases x with
    | add ts => exact (hereditary_varsIn.add ts).1 h
    | _ => simpa [terms] using h

theorem mem_of_combination_eq (hts : TermRow ts) (hus : TermRow us) (htr : ∀ t ∈ ts, Regular t)
    (hur : ∀ u ∈ us, Regular u) (h : combination ts = combination us) (ht : t ∈ ts) : t ∈ us := by
  obtain ⟨hterm, hcoeff⟩ := (htr t ht).withCoeff_splitCoeff (hts.notSum t ht)
  have hvalue : combination us t.splitCoeff.2 = t.splitCoeff.1 := h ▸ combination_of_mem hts.notSum hts.rests ht
  have hmem : t.splitCoeff.2 ∈ us.map fun u => u.splitCoeff.2 := by
    by_contra hnot
    exact hcoeff (hts.notZero t ht) (hvalue ▸ combination_eq_zero hus.notSum hnot)
  obtain ⟨u, hu, hrest⟩ := List.mem_map.1 hmem
  have hsame : u.splitCoeff.1 = t.splitCoeff.1 := by
    rw [← combination_of_mem hus.notSum hus.rests hu, hrest, hvalue]
  rw [← hterm, ← hrest, ← hsame, ((hur u hu).withCoeff_splitCoeff (hus.notSum u hu)).1]
  exact hu

/-- Regular trees with one combination are one tree. -/
theorem eq_of_combination (hx : Regular x) (hy : Regular y) (hnames : VarsIn IsName x)
    (h : combination [x] = combination [y]) : x = y := by
  obtain ⟨hxrow, hxr, hxe, hxc⟩ := hx.summands
  obtain ⟨hyrow, hyr, hye, hyc⟩ := hy.summands
  have hrows : combination x.summands = combination y.summands := by rw [hxc, h, hyc]
  have hperm : x.summands.Perm y.summands :=
    (List.perm_ext_iff_of_nodup (.of_map _ hxrow.rests) (.of_map _ hyrow.rests)).2 fun t =>
      ⟨mem_of_combination_eq hxrow hyrow hxr hyr hrows, mem_of_combination_eq hyrow hxrow hyr hxr hrows.symm⟩
  -- the terms stand in order on both sides, and there is one order only
  have hsame : x.summands = y.summands := by
    rw [← sortTerms_of_sorted hxrow.sorted, ← sortTerms_of_sorted hyrow.sorted]
    exact sortTerms_eq_of_perm (summands_names hnames) hperm
  rw [← hxe, hsame, hye]

/-! ## The combination of a sum -/

/-- The coefficients that have been collected; the rational part is one of one. -/
def TermGroups.coefficients (g : TermGroups) : List (Expr × Rat) := (one, g.constant) :: g.groups

/-- One more finite term adds its coefficient. -/
theorem TermGroups.coefficientOf_insert (g : TermGroups) (hinf : t.infinitySign? = none) (r : Expr) :
    coefficientOf r (g.insert t).coefficients = coefficientOf r g.coefficients + coefficientOf r [asGroup t] := by
  unfold TermGroups.insert
  split
  · simp only [coefficients, asGroup, splitCoeff_rat, coefficientOf_cons, coefficientOf_nil]
    split
    · rw [add_zero, add_right_comm]
    · simp
  · rw [hinf]
    simp only [coefficients, asGroup, coefficientOf_cons, coefficientOf_nil, coefficientOf_collectTerm, add_assoc, add_zero]

theorem TermGroups.coefficientOf_insertAll (g : TermGroups) (hinf : ∀ t ∈ ts, t.infinitySign? = none) (r : Expr) :
    coefficientOf r (ts.foldl TermGroups.insert g).coefficients =
      coefficientOf r g.coefficients + coefficientOf r (ts.map asGroup) := by
  induction ts generalizing g with
  | nil => simp
  | cons t ts ih =>
    obtain ⟨ht, hts⟩ := List.forall_mem_cons.1 hinf
    rw [List.foldl_cons, ih _ hts, g.coefficientOf_insert ht, List.map_cons, add_assoc, ← coefficientOf_append]
    rfl

theorem RegularRest.splitCoeff_withCoeff {r : Expr} (h : RegularRest r) (c : Rat) :
    (withCoeff c r).isSum = false ∧ (withCoeff c r).splitCoeff = (c, r) := by
  obtain ⟨fs, -, hrow, hlone, -, rfl⟩ := h
  rw [withCoeff_times hrow.notRat hrow.notProduct]
  exact ⟨isSum_times_of_notLone hlone c, splitCoeff_times hrow.notRat hrow.notProduct c⟩

theorem combination_keptTerms {gs : List (Expr × Rat)} (hrests : ∀ p ∈ gs, RegularRest p.1) (r : Expr) :
    combination (keptTerms gs) r = coefficientOf r gs := by
  induction gs with
  | nil => rw [show keptTerms [] = [] from rfl, combination_nil, coefficientOf_nil, Pi.zero_apply]
  | cons g gs ih =>
    obtain ⟨hg, hgs⟩ := List.forall_mem_cons.1 hrests
    rw [keptTerms_cons, coefficientOf_cons, ← ih hgs]
    split
    · rename_i hc
      simp [hc]
    · obtain ⟨hs, hsplit⟩ := hg.splitCoeff_withCoeff g.2
      rw [combination_cons, Pi.add_apply, combination_of_notSum (by simpa using hs), List.map_singleton, coefficientOf_cons,
        coefficientOf_nil, add_zero, asGroup, hsplit]

theorem TermGroups.combination_allTerms {g : TermGroups} (hrests : ∀ p ∈ g.groups, RegularRest p.1) (r : Expr) :
    combination g.allTerms r = coefficientOf r g.coefficients := by
  rw [TermGroups.allTerms, combination_append, Pi.add_apply, combination_keptTerms hrests, TermGroups.coefficients,
    coefficientOf_cons, add_comm]
  congr 1
  split
  · rw [combination_of_notSum (by simp [isSum]), List.map_singleton, coefficientOf_cons, coefficientOf_nil, add_zero]
    rfl
  · rename_i hc
    rw [not_not.1 hc, combination_nil, ite_self, Pi.zero_apply]

/-- What a sum of ordinary trees is made of. -/
theorem sum_ordinary_terms (h : ∀ x ∈ xs, Ordinary x) :
    ∃ ts, sum xs = ofTerms ts ∧ (∀ t ∈ ts, Regular t ∧ t.isSum = false) ∧ combination ts = combination xs := by
  have hflat := flattenTerms_ordinary h
  have hrests := TermGroups.rests_insertAll (Q := RegularRest)
    (fun t ht hr hinf => (hflat t ht).1.regular.rest (hflat t ht).2 hr hinf) (g := .empty) (by simp [TermGroups.empty])
  have hnodup := TermGroups.nodup_insertAll (flattenTerms xs) (g := .empty) (by simp [TermGroups.empty])
  have hcoefficients := TermGroups.coefficientOf_insertAll .empty fun t ht => (hflat t ht).1.infinitySign?
  refine ⟨_, sum_of_finite fun t ht => ⟨(hflat t ht).1.ne_undefined, (hflat t ht).1.infinitySign?⟩, ?_, ?_⟩
  · refine List.forall_mem_append.2 ⟨fun t ht => ?_, fun t ht => ?_⟩
    · obtain ⟨hregular, hs, -⟩ := (keptTerms_regular hrests hnodup).1 t ht
      exact ⟨hregular, hs⟩
    · split at ht
      · obtain rfl := List.mem_singleton.1 ht
        exact ⟨regular_rat _, rfl⟩
      · cases ht
  · funext r
    rw [TermGroups.combination_allTerms hrests, hcoefficients]
    simp [TermGroups.coefficients, TermGroups.empty, coefficientOf_cons, combination]

theorem combination_sum (h : ∀ x ∈ xs, Ordinary x) : combination [sum xs] = combination xs := by
  obtain ⟨ts, hsum, hts, hcombination⟩ := sum_ordinary_terms h
  rw [hsum, combination_ofTerms fun t ht => (hts t ht).2, hcombination]

theorem ordinary_sum (h : ∀ x ∈ xs, Ordinary x) : Ordinary (sum xs) := by
  refine ⟨?_, compositional_noInfinity.sum fun x hx => (h x hx).noInfinity,
    hereditary_varsIn.sum fun x hx => (h x hx).names⟩
  refine (sum_wellFormed fun x hx => (h x hx).regular.wellFormed).regular ?_
  obtain ⟨ts, hsum, hts, -⟩ := sum_ordinary_terms h
  rw [hsum]
  match ts with
  | [] => simp [ofTerms, zero]
  | [t] =>
    rintro (rfl : t = undefined)
    exact (hts undefined (by simp)).1
  | t :: u :: ts => simp [ofTerms]

/-! ## Rearranging sums -/

/-- A sum of ordinary trees is told from its combination. -/
theorem sum_eq_of_combination (hx : ∀ x ∈ xs, Ordinary x) (hy : ∀ y ∈ ys, Ordinary y)
    (h : combination xs = combination ys) : sum xs = sum ys :=
  eq_of_combination (ordinary_sum hx).regular (ordinary_sum hy).regular (ordinary_sum hx).names
    (by rw [combination_sum hx, combination_sum hy, h])

theorem sum_perm (hx : ∀ x ∈ xs, Ordinary x) (h : xs.Perm ys) : sum xs = sum ys :=
  sum_eq_of_combination hx (fun y hy => hx y (h.mem_iff.2 hy)) (combination_perm h)

/-- The sum of two sums is the sum of all operands. -/
theorem sum_sum_sum (hx : ∀ x ∈ xs, Ordinary x) (hy : ∀ y ∈ ys, Ordinary y) : sum [sum xs, sum ys] = sum (xs ++ ys) := by
  refine sum_eq_of_combination (by simpa using ⟨ordinary_sum hx, ordinary_sum hy⟩)
    (List.forall_mem_append.2 ⟨hx, hy⟩) ?_
  rw [combination_cons, combination_sum hx, combination_sum hy, combination_append]

end SymbolicSolver.Expr
