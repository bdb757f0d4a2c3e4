import Mathlib.Algebra.BigOperators.Intervals
import Mathlib.Algebra.BigOperators.Ring.Finset
import Mathlib.Data.List.Forall2
import SymbolicSolver.Polynomial.Coefficients
import SymbolicSolver.Proofs.Polynomial.Division
import SymbolicSolver.Proofs.Simplify.Expand

/-!
# Coefficients and values

The coefficients of an expression in a variable are the coefficients of a polynomial whose value at the variable is
the value of the expression, and the expression of a polynomial has the value of the polynomial.
-/

namespace SymbolicSolver

theorem forall₂_of_mapM_eq_some {α β : Type} {f : α → Option β} {xs : List α} {ys : List β}
    (h : xs.mapM f = some ys) : List.Forall₂ (fun x y => f x = some y) xs ys := by
  induction xs generalizing ys with
  | nil =>
    obtain rfl : [] = ys := by simpa using h
    exact .nil
  | cons x xs ih =>
    simp only [List.mapM_cons, Option.bind_eq_bind, Option.bind_eq_some_iff, Option.pure_def,
      Option.some.injEq] at h
    obtain ⟨y, hy, zs, hzs, rfl⟩ := h
    exact .cons hy (ih hzs)

theorem exists_mem_of_forall₂ {α β : Type} {R : α → β → Prop} {xs : List α} {ys : List β}
    (h : List.Forall₂ R xs ys) {y : β} (hy : y ∈ ys) : ∃ x ∈ xs, R x y := by
  induction h with
  | nil => cases hy
  | cons hx _ ih =>
    rcases List.mem_cons.1 hy with rfl | hy
    · exact ⟨_, List.mem_cons_self, hx⟩
    · obtain ⟨x, hmem, hx⟩ := ih hy
      exact ⟨x, List.mem_cons_of_mem _ hmem, hx⟩

namespace RatPoly

theorem evalList_append (x : Rat) (cs ds : List Rat) :
    evalList x (cs ++ ds) = evalList x cs + x ^ cs.length * evalList x ds := by
  induction cs with
  | nil => simp [evalList]
  | cons c cs ih =>
    simp only [List.cons_append, evalList, ih, List.length_cons]
    ring

theorem evalList_range (x : Rat) (f : Nat → Rat) (n : Nat) :
    evalList x ((List.range n).map f) = ∑ k ∈ Finset.range n, f k * x ^ k := by
  induction n with
  | zero => rfl
  | succ n ih =>
    rw [List.range_succ, List.map_append, evalList_append, ih, Finset.sum_range_succ]
    simp [evalList]
    ring

/-- Collecting monomials by their degree does not change the value. -/
theorem evalList_collect (x : Rat) {n : Nat} {ms : List (Nat × Rat)} (h : ∀ m ∈ ms, m.1 < n) :
    evalList x ((List.range n).map fun k => ((ms.filter fun m => m.1 = k).map (·.2)).sum) =
      (ms.map fun m => x ^ m.1 * m.2).sum := by
  rw [evalList_range]
  induction ms with
  | nil => simp
  | cons m ms ih =>
    obtain ⟨hm, hms⟩ := List.forall_mem_cons.1 h
    -- The monomial joins the group of its own degree, which is one of those listed, and no other.
    have hsplit (k : Nat) : (((m :: ms).filter fun m => m.1 = k).map (·.2)).sum * x ^ k =
        (if m.1 = k then m.2 * x ^ k else 0) +
          ((ms.filter fun m => m.1 = k).map (·.2)).sum * x ^ k := by
      by_cases hk : m.1 = k <;> simp [hk, add_mul]
    rw [Finset.sum_congr rfl fun k _ => hsplit k, Finset.sum_add_distrib, Finset.sum_ite_eq,
      if_pos (Finset.mem_range.2 hm), ih hms, List.map_cons, List.sum_cons, mul_comm m.2]

theorem eval_eq (p : RatPoly) (x : Rat) : p.eval x = p.toPoly.eval x :=
  (eval_polyOf x p.coeffs).symm

theorem eval_ofList (cs : List Rat) (x : Rat) : (ofList cs).eval x = evalList x cs := by
  rw [eval_eq, toPoly_ofList, eval_polyOf]

end RatPoly

namespace Expr

/-! ## Polynomials as expressions -/

theorem polyTerms_value (r : Reading) (name : String) (k : Nat) (cs : List Rat) :
    (∀ t ∈ polyTerms name k cs, Defined r t) ∧
      ((polyTerms name k cs).map (eval r)).sum =
        r.var name ^ k * RatPoly.evalList (r.var name) cs := by
  induction cs generalizing k with
  | nil => simp [polyTerms, RatPoly.evalList]
  | cons c cs ih =>
    obtain ⟨hrest, hv⟩ := ih (k + 1)
    have hpow := power_keepsValue r (var name) (int k)
      ((defined_pow_int _ _).2 ⟨defined_var name, .inl (Int.natCast_nonneg k)⟩)
    have hvpow : eval r (power (var name) (int k)) = r.var name ^ k :=
      hpow.2.trans ((eval_pow_int _ _).trans (zpow_natCast _ _))
    have hterm := product_keepsValue r [rat c, power (var name) (int k)] (by simp [hpow.1])
    have hvterm : eval r (product [rat c, power (var name) (int k)]) = c * r.var name ^ k := by
      rw [hterm.2]
      simp [hvpow]
    rw [polyTerms]
    split
    · rename_i hc
      refine ⟨hrest, hv.trans ?_⟩
      rw [RatPoly.evalList, hc]
      ring
    · refine ⟨List.forall_mem_cons.2 ⟨hterm.1, hrest⟩, ?_⟩
      rw [List.map_cons, List.sum_cons, hv, hvterm, RatPoly.evalList]
      ring

/-- The expression of a polynomial has the value of the polynomial. -/
theorem ofRatPoly_value (r : Reading) (q : RatPoly) (name : String) :
    Defined r (ofRatPoly q name) ∧ eval r (ofRatPoly q name) = q.eval (r.var name) := by
  obtain ⟨hd, hv⟩ := polyTerms_value r name 0 q.coeffs
  have hsum := sum_keepsValue r _ ((defined_add _).2 hd)
  refine ⟨hsum.1, hsum.2.trans ?_⟩
  rw [eval_add, hv, pow_zero, one_mul, RatPoly.eval]

/-! ## Monomials -/

variable {p : CirclePoint} {name : String}

/-- A single factor of known degree is that power of the variable. -/
theorem varDegree?_value {f : Expr} {k : Nat} (hf : f.isProduct = false)
    (h : varDegree? name f = some k) : eval p.reading f = p.var name ^ k := by
  cases f with
  | var s =>
    simp only [varDegree?, Option.ite_none_right_eq_some, Option.some.injEq] at h
    obtain ⟨rfl, rfl⟩ := h
    exact (pow_one _).symm
  | pow b x =>
    simp only [varDegree?, Option.ite_none_right_eq_some, Option.bind_eq_some_iff, Bool.and_eq_true,
      decide_eq_true_eq, Option.some.injEq] at h
    obtain ⟨rfl, n, hn, ⟨hpos, -⟩, rfl⟩ := h
    rw [smallInt?_eq_some hn, eval_pow_int, ← zpow_natCast, Int.natAbs_of_nonneg hpos]
    rfl
  | mul fs => simp [isProduct] at hf
  | _ => simp [varDegree?] at h

theorem varDegreeAll?_value {fs : List Expr} {k : Nat} (hfs : ∀ f ∈ fs, f.isProduct = false)
    (h : varDegreeAll? name fs = some k) :
    (fs.map (eval p.reading)).prod =
      p.var name ^ k * ((fs.filter fun f => !f.hasVar name).map (eval p.reading)).prod := by
  induction fs with
  | nil => simp [varDegreeAll?] at h
  | cons f fs ih =>
    obtain ⟨hf, hfs⟩ := List.forall_mem_cons.1 hfs
    rw [varDegreeAll?] at h
    split at h
    · rename_i hvar
      simp only [Option.ite_none_left_eq_some] at h
      obtain ⟨hothers, hk⟩ := h
      have hkeep : (fs.filter fun f => !f.hasVar name) = fs := by
        simpa using hothers
      simp [hvar, hkeep, varDegree?_value hf hk]
    · rename_i hvar
      simp [hvar, ih hfs h]
      ring

/-- A term is the power of the variable times what stands beside it. -/
theorem monomial?_value {t : Expr} {m : Nat × Expr} (ht : Readable p t)
    (h : monomial? name t = some m) :
    Defined p.reading m.2 ∧ eval p.reading t = p.var name ^ m.1 * eval p.reading m.2 := by
  unfold monomial? at h
  split at h
  · obtain rfl := Option.some.inj h
    exact ⟨ht.defined, by simp⟩
  · obtain ⟨k, hk, h⟩ := Option.map_eq_some_iff.1 h
    cases t with
    | mul fs =>
      obtain rfl := h
      have hother := product_keepsValue p.reading (fs.filter fun f => !f.hasVar name)
        ((defined_mul _).2 fun f hf => (defined_mul fs).1 ht.defined f (List.mem_of_mem_filter hf))
      refine ⟨hother.1, ?_⟩
      rw [hother.2, eval_mul, eval_mul]
      exact varDegreeAll?_value ((tidy_mul fs).1 ht.tidy).2.1 (by rwa [varDegree?] at hk)
    | _ =>
      obtain rfl := h
      exact ⟨trivial, by rw [varDegree?_value rfl hk]; simp [one]⟩

/-! ## Coefficients -/

theorem dropZeroLead_value (r : Reading) (x : Rat) (cs : List Expr) :
    RatPoly.evalList x ((dropZeroLead cs).map (eval r)) = RatPoly.evalList x (cs.map (eval r)) := by
  induction cs with
  | nil => rfl
  | cons c cs ih =>
    rw [List.map_cons, RatPoly.evalList, ← ih, dropZeroLead]
    split
    · rename_i h
      rw [h]
      split
      · rename_i hc
        obtain rfl : c = rat 0 := by cases c <;> simp_all [isZero]
        simp [RatPoly.evalList]
      · rfl
    · rename_i d ds h
      rw [h]
      rfl

/-- The monomials of terms add up to the sum of the terms. -/
theorem monomials_value {ts : List Expr} {ms : List (Nat × Expr)} (hts : ∀ t ∈ ts, Readable p t)
    (h : List.Forall₂ (fun t m => monomial? name t = some m) ts ms) :
    (∀ m ∈ ms, Defined p.reading m.2) ∧
      (ms.map fun m => p.var name ^ m.1 * eval p.reading m.2).sum =
        (ts.map (eval p.reading)).sum := by
  induction h with
  | nil => simp
  | cons hm _ ih =>
    obtain ⟨ht, hts⟩ := List.forall_mem_cons.1 hts
    obtain ⟨hdm, hvm⟩ := monomial?_value ht hm
    obtain ⟨hds, hvs⟩ := ih hts
    exact ⟨List.forall_mem_cons.2 ⟨hdm, hds⟩, by
      rw [List.map_cons, List.sum_cons, hvs, List.map_cons, List.sum_cons, hvm]⟩

theorem le_foldl_max (ks : List Nat) (n : Nat) : n ≤ ks.foldl max n ∧ ∀ k ∈ ks, k ≤ ks.foldl max n := by
  induction ks generalizing n with
  | nil => simp
  | cons k ks ih =>
    obtain ⟨hn, hks⟩ := ih (max n k)
    exact ⟨(le_max_left n k).trans hn, List.forall_mem_cons.2 ⟨(le_max_right n k).trans hn, hks⟩⟩

/-- Collecting the monomials of each degree in a canonical sum does not change the value. -/
theorem collected_value {r : Reading} {ms : List (Nat × Expr)} (hms : ∀ m ∈ ms, Defined r m.2)
    (x : Rat) :
    RatPoly.evalList x (((List.range ((ms.map (·.1)).foldl max 0 + 1)).map fun k =>
        sum ((ms.filter fun m => m.1 = k).map (·.2))).map (eval r)) =
      (ms.map fun m => x ^ m.1 * eval r m.2).sum := by
  have hgroup (k : Nat) : eval r (sum ((ms.filter fun m => m.1 = k).map (·.2))) =
      (((ms.map fun m => (m.1, eval r m.2)).filter fun m => m.1 = k).map (·.2)).sum := by
    have hd : ∀ t ∈ (ms.filter fun m => m.1 = k).map (·.2), Defined r t := by
      intro t ht
      obtain ⟨m, hm, rfl⟩ := List.mem_map.1 ht
      exact hms m (List.mem_of_mem_filter hm)
    rw [(sum_keepsValue r _ ((defined_add _).2 hd)).2, eval_add, List.filter_map, List.map_map,
      List.map_map]
    rfl
  have hdegree : ∀ m ∈ ms.map fun m => (m.1, eval r m.2),
      m.1 < (ms.map (·.1)).foldl max 0 + 1 := by
    intro _ h
    obtain ⟨m, hm, rfl⟩ := List.mem_map.1 h
    exact Nat.lt_succ_of_le ((le_foldl_max _ 0).2 m.1 (List.mem_map_of_mem hm))
  have hcollect := RatPoly.evalList_collect x hdegree
  rw [List.map_map] at hcollect ⊢
  exact (congrArg _ (List.map_congr_left fun k _ => hgroup k)).trans hcollect

/-- The coefficients are those of a polynomial that has the value of the expression at the variable. -/
theorem coefficients?_value {x : Expr} {cs : List Expr} (hx : Defined p.reading x)
    (h : x.coefficients? name = some cs) :
    RatPoly.evalList (p.var name) (cs.map (eval p.reading)) = eval p.reading x := by
  obtain ⟨ms, hms, h⟩ := Option.map_eq_some_iff.1 h
  have hexp := expand_restates x hx
  obtain ⟨hdef, hsum⟩ := monomials_value hexp.toReadable.terms (forall₂_of_mapM_eq_some hms)
  rw [eval_terms, hexp.value] at hsum
  dsimp only at h
  have hvalue := collected_value hdef (p.var name)
  rw [← dropZeroLead_value, hsum] at hvalue
  rw [← hvalue, ← h]
  split
  · rename_i hnil
    rw [hnil]
    simp [RatPoly.evalList, zero]
  · rfl

theorem rationals_value (r : Reading) {cs : List Expr} {qs : List Rat}
    (h : List.Forall₂ (fun c q => rat? c = some q) cs qs) : cs.map (eval r) = qs := by
  induction h with
  | nil => rfl
  | @cons c q cs qs hc _ ih =>
    obtain rfl : c = rat q := by
      cases c <;> simp [rat?] at hc
      rw [hc]
    rw [List.map_cons, ih, eval_rat]

/-- A polynomial with rational coefficients has the value of the expression at the variable. -/
theorem ratPoly?_value {x : Expr} {q : RatPoly} (hx : Defined p.reading x)
    (h : x.ratPoly? name = some q) : q.eval (p.var name) = eval p.reading x := by
  obtain ⟨cs, hcs, h⟩ := Option.bind_eq_some_iff.1 h
  obtain ⟨qs, hqs, rfl⟩ := Option.map_eq_some_iff.1 h
  rw [RatPoly.eval_ofList, ← rationals_value p.reading (forall₂_of_mapM_eq_some hqs)]
  exact coefficients?_value hx hcs

end Expr

end SymbolicSolver
