import SymbolicSolver.Proofs.Simplify.CirclePoint
import SymbolicSolver.Simplify.Trigonometric

/-!
# The trigonometric identities keep the value

Under a reading on the unit circle every rewriting rule keeps the value of a tidy tree, hence so do a pass and any
number of passes. The rule for `c sin(u)² - c` drops every rational term of a sum; it is right because a tidy sum
has only one. Shifts by quarter turns never fit, because only variables stand below a function.
-/

namespace SymbolicSolver

theorem splits_eq {α : Type} {xs : List α} {s : List α × α × List α} (h : s ∈ splits xs) :
    xs = s.1 ++ s.2.1 :: s.2.2 := by
  induction xs generalizing s with
  | nil => simp [splits] at h
  | cons x xs ih =>
    simp only [splits, List.mem_cons, List.mem_map] at h
    rcases h with rfl | ⟨t, ht, rfl⟩
    · rfl
    · simp [ih ht]

/-- An element and what stands around it are the list in another order. -/
theorem splits_perm {α : Type} {xs : List α} {s : List α × α × List α} (h : s ∈ splits xs) :
    xs.Perm (s.2.1 :: (s.1 ++ s.2.2)) := by
  rw [splits_eq h]
  exact List.perm_middle

namespace Expr

variable {p : CirclePoint}

/-! ## Squares -/

theorem squaredArg?_eq_some {f : Func} {x u : Expr} (h : squaredArg? f x = some u) :
    x = pow (fn f u) (rat (2 : Int)) := by
  unfold squaredArg? at h
  split at h
  · split at h
    · rename_i hc
      simp only [Bool.and_eq_true, decide_eq_true_eq] at hc
      rw [smallInt?_eq_some hc.2, hc.1, Option.some.inj h]
    · simp at h
  · simp at h

/-- The square of a function that has a value. -/
theorem restates_squareOf {f : Func} {u : Expr} (hd : Defined p.reading (fn f u)) :
    Restates p (pow (fn f u) (rat (2 : Int))) (squareOf f u) := by
  obtain ⟨v, rfl⟩ := hd.arg
  rw [squareOf, apply_var]
  exact restates_power trivial trivial ((defined_pow_int _ 2).2 ⟨hd, .inl (by norm_num)⟩)

/-! ## The Pythagorean identities -/

/-- A term `A sin(u)² B` is `A B` less `A cos(u)² B`. -/
theorem sinSquareParts_spec {t : Expr} (ht : Readable p t) {parts : Expr × Expr}
    (h : parts ∈ sinSquareParts t) :
    Readable p parts.2 ∧
      eval p.reading t + eval p.reading parts.1 = eval p.reading parts.2 := by
  simp only [sinSquareParts, List.mem_filterMap, Option.map_eq_some_iff] at h
  obtain ⟨s, hs, u, hu, rfl⟩ := h
  have hf := squaredArg?_eq_some hu
  have hfs := ht.factors
  have hvalue := eval_factors (p := p) t
  rw [splits_eq hs] at hfs hvalue
  simp only [List.forall_mem_append, List.forall_mem_cons] at hfs
  obtain ⟨hpre, hsin, hpost⟩ := hfs
  -- The square has a value, so the sine is that of a variable.
  have hdsin := hsin.defined
  rw [hf, defined_pow_int] at hdsin
  obtain ⟨v, rfl⟩ := hdsin.1.arg
  have hcos := restates_squareOf (defined_cos (p := p) v)
  have hwith : Restates p _ (product (s.1 ++ squareOf .cos (var v) :: s.2.2)) :=
    restates_product
      (List.forall_mem_append.2 ⟨hpre, List.forall_mem_cons.2 ⟨hcos.toReadable, hpost⟩⟩)
  have hwithout : Restates p _ (product (s.1 ++ s.2.2)) :=
    restates_product (List.forall_mem_append.2 ⟨hpre, hpost⟩)
  refine ⟨hwithout.toReadable, ?_⟩
  rw [← hvalue, hwith.value, hwithout.value, hf]
  simp only [eval_mul, List.map_append, List.map_cons, List.prod_append, List.prod_cons, hcos.value,
    eval_pow_int, eval_sin, eval_cos]
  have hcircle := p.on_circle v
  norm_cast
  linear_combination (s.1.map (eval p.reading)).prod * (s.2.2.map (eval p.reading)).prod * hcircle

theorem pythagoreanRule_restates {x y : Expr} (hx : Readable p x)
    (h : pythagoreanRule x = some y) : Restates p x y := by
  unfold pythagoreanRule at h
  split at h
  · rename_i ts
    obtain ⟨s, hs, h⟩ := List.exists_of_findSome?_eq_some h
    obtain ⟨parts, hparts, h⟩ := List.exists_of_findSome?_eq_some h
    simp only [Option.ite_none_right_eq_some, Option.some.injEq] at h
    obtain ⟨hmem, rfl⟩ := h
    -- The term with the sine comes first, then the one with the cosine, then all others.
    have hperm := (splits_perm hs).trans
      ((List.perm_cons_erase (List.contains_iff_mem.1 hmem)).cons s.2.1)
    generalize (s.1 ++ s.2.2).erase parts.1 = others at hperm ⊢
    obtain ⟨hsin, -, hothers⟩ : Readable p s.2.1 ∧ Readable p parts.1 ∧ ∀ w ∈ others, Readable p w := by
      simpa using fun w hw => hx.operands w (hperm.mem_iff.2 hw)
    obtain ⟨hpart, hvalue⟩ := sinSquareParts_spec hsin hparts
    have hsum := restates_sum (List.forall_mem_append.2 ⟨hothers, List.forall_mem_singleton.2 hpart⟩)
    refine ⟨hsum.toReadable, hsum.value.trans ?_⟩
    have hall := (hperm.map (eval p.reading)).sum_eq
    simp only [eval_add, List.map_append, List.sum_append, List.map_cons, List.sum_cons,
      List.map_nil, List.sum_nil] at hall ⊢
    linear_combination -hall - hvalue
  · simp at h

/-- The terms of a sum are its rational terms and the others. -/
theorem sum_rat_add_others (r : Reading) (ts : List Expr) :
    (ts.map (eval r)).sum =
      (ts.filterMap rat?).sum + ((ts.filter fun w => w.rat?.isNone).map (eval r)).sum := by
  induction ts with
  | nil => simp
  | cons t ts ih =>
    cases t with
    | rat q => simp [rat?, ih, add_assoc]
    | _ =>
      simp only [rat?, List.filterMap_cons, List.filter_cons, List.map_cons, List.sum_cons, ih,
        Option.isNone_none, if_true]
      ring

/-- `c f(u)² - c` is `-c g(u)²`, for sine and cosine in either order. -/
theorem complementOf_spec {constant : Rat} {others : List Expr} {t y : Expr} {f g : Func}
    (hfg : ∀ v, eval p.reading (fn f (var v)) ^ 2 + eval p.reading (fn g (var v)) ^ 2 = 1)
    (hg : ∀ v, Defined p.reading (fn g (var v))) (ht : Readable p t)
    (hothers : ∀ w ∈ others, Readable p w) (h : complementOf constant others t f g = some y) :
    t.rat? = none ∧ Readable p y ∧
      eval p.reading y =
        eval p.reading t + constant + (others.map (eval p.reading)).sum := by
  simp only [complementOf, Option.bind_eq_some_iff, Option.ite_none_right_eq_some,
    Option.some.injEq] at h
  obtain ⟨u, hu, hc, rfl⟩ := h
  have hf := squaredArg?_eq_some hu
  obtain ⟨hdt, hvt⟩ := ht.defined.splitCoeff
  rw [hf, defined_pow_int] at hdt
  obtain ⟨v, rfl⟩ := hdt.1.arg
  have hsq := restates_squareOf (hg v)
  have hterm : Restates p _ (product [rat (-t.splitCoeff.1), squareOf g (var v)]) :=
    restates_product (by simp [hsq.toReadable, Readable.mk])
  have hsum := restates_sum
    (List.forall_mem_append.2 ⟨hothers, List.forall_mem_singleton.2 hterm.toReadable⟩)
  refine ⟨?_, hsum.toReadable, ?_⟩
  · cases t with
    | rat q => simp [splitCoeff, one] at hf
    | _ => rfl
  · rw [hf, eval_pow_int] at hvt
    rw [hsum.value, ← hvt]
    simp only [eval_add, List.map_append, List.sum_append, List.map_cons, List.sum_cons,
      List.map_nil, List.sum_nil, hterm.value, eval_mul, List.prod_cons, List.prod_nil, eval_rat,
      hsq.value, eval_pow_int]
    norm_cast
    linear_combination (-t.splitCoeff.1) * hfg v - hc

/-- In a tidy sum the rational term that was found is the only one. -/
theorem filterMap_rat?_of_tidy {ts : List Expr} {c : Rat} (h : Tidy (add ts))
    (hc : ts.findSome? rat? = some c) : ts.filterMap rat? = [c] := by
  have hone := ((tidy_add ts).1 h).2
  rw [← List.head?_filterMap] at hc
  cases hl : ts.filterMap rat? with
  | nil => simp [hl] at hc
  | cons d ds => simp_all

theorem complementRule_restates {x y : Expr} (hx : Readable p x)
    (h : complementRule x = some y) : Restates p x y := by
  unfold complementRule at h
  split at h
  · rename_i ts
    obtain ⟨constant, hconst, h⟩ := Option.bind_eq_some_iff.1 h
    obtain ⟨s, hs, h⟩ := List.exists_of_findSome?_eq_some h
    dsimp only at h
    have hperm := splits_perm hs
    obtain ⟨hterm, hrest⟩ : Readable p s.2.1 ∧ ∀ w ∈ s.1 ++ s.2.2, Readable p w :=
      List.forall_mem_cons.1 fun w hw => hx.operands w (hperm.mem_iff.2 hw)
    have hothers : ∀ w ∈ (s.1 ++ s.2.2).filter fun w => w.rat?.isNone, Readable p w :=
      fun w hw => hrest w (List.mem_of_mem_filter hw)
    -- The term is a square of the sine or of the cosine, and in particular no rational.
    obtain ⟨hnone, hy, hvalue⟩ : s.2.1.rat? = none ∧ Readable p y ∧
        eval p.reading y = eval p.reading s.2.1 + constant +
          (((s.1 ++ s.2.2).filter fun w => w.rat?.isNone).map (eval p.reading)).sum := by
      rcases Option.or_eq_some_iff.1 h with h | ⟨-, h⟩
      · exact complementOf_spec (f := .sin) (g := .cos) p.on_circle defined_cos hterm hothers h
      · exact complementOf_spec (f := .cos) (g := .sin)
          (fun v => (add_comm _ _).trans (p.on_circle v)) defined_sin hterm hothers h
    refine ⟨hy, hvalue.trans ?_⟩
    -- The rational terms that are dropped are the one term `constant`.
    have hrats : ((s.1 ++ s.2.2).filterMap rat?).sum = constant := by
      have hsame := hperm.filterMap rat?
      rw [filterMap_rat?_of_tidy hx.tidy hconst, List.filterMap_cons, hnone] at hsame
      rw [← hsame.sum_eq, List.sum_singleton]
    have hall := (hperm.map (eval p.reading)).sum_eq
    rw [eval_add, hall, List.map_cons, List.sum_cons, sum_rat_add_others _ (s.1 ++ s.2.2), hrats]
    ring
  · simp at h

/-! ## The tangent -/

theorem inverse_cos (v : String) :
    inverse (apply .cos (var v)) = pow (fn .cos (var v)) (rat (-1)) := by
  rw [apply_var]
  rfl

/-- `sin(v) / cos(v)` is `tan(v)`: the factor `1 / cos(v)` has a value, so the cosine does not vanish. -/
theorem sin_over_cos_restates {others : List Expr} {v : String} (hothers : ∀ f ∈ others, Readable p f)
    (hmem : pow (fn .cos (var v)) (rat (-1)) ∈ others) :
    Restates p (mul (fn .sin (var v) :: others))
      (product (others.erase (pow (fn .cos (var v)) (rat (-1))) ++ [fn .tan (var v)])) := by
  have hperm := List.perm_cons_erase hmem
  have hcos : p.cos v ≠ 0 := by
    have hd := (hothers _ hmem).defined
    rw [defined_pow] at hd
    exact hd.2.2.resolve_left (by norm_num)
  have hinv : p.cos v ^ (-1 : Rat).num = (p.cos v)⁻¹ := zpow_neg_one _
  obtain ⟨hdtan, hvtan⟩ := eval_tan hcos
  have hrest : ∀ f ∈ others.erase (pow (fn .cos (var v)) (rat (-1))), Readable p f :=
    fun f hf => hothers f (List.mem_of_mem_erase hf)
  have htan : Readable p (fn .tan (var v)) := ⟨trivial, hdtan⟩
  have hprod :=
    restates_product (List.forall_mem_append.2 ⟨hrest, List.forall_mem_singleton.2 htan⟩)
  refine ⟨hprod.toReadable, hprod.value.trans ?_⟩
  have hall := (hperm.map (eval p.reading)).prod_eq
  rw [List.map_cons, List.prod_cons, eval_pow, eval_cos, hinv] at hall
  simp only [eval_mul, List.map_append, List.prod_append, List.map_cons, List.prod_cons,
    List.map_nil, List.prod_nil, eval_sin, hvtan, hall]
  rw [div_eq_mul_inv]
  ring

theorem tangentRule_restates {x y : Expr} (hx : Readable p x) (h : tangentRule x = some y) :
    Restates p x y := by
  unfold tangentRule at h
  split at h
  · rename_i fs
    obtain ⟨s, hs, h⟩ := List.exists_of_findSome?_eq_some h
    obtain ⟨u, hu, h⟩ := Option.bind_eq_some_iff.1 h
    simp only [Option.ite_none_right_eq_some, Option.some.injEq] at h
    obtain ⟨hmem, rfl⟩ := h
    have hsin : s.2.1 = fn .sin u := by
      unfold sinArg? at hu
      split at hu
      · rename_i heq
        rw [heq, Option.some.inj hu]
      · simp at hu
    have hperm := splits_perm hs
    rw [hsin] at hperm
    obtain ⟨hf, hothers⟩ : Readable p (fn .sin u) ∧ ∀ f ∈ s.1 ++ s.2.2, Readable p f :=
      List.forall_mem_cons.1 fun f hf => hx.factors f (hperm.mem_iff.2 hf)
    obtain ⟨v, rfl⟩ := hf.defined.arg
    rw [inverse_cos] at hmem ⊢
    rw [apply_var]
    have htan := sin_over_cos_restates hothers (List.contains_iff_mem.1 hmem)
    refine ⟨htan.toReadable, htan.value.trans ?_⟩
    rw [eval_mul, eval_mul, (hperm.map (eval p.reading)).prod_eq]
  · simp at h

/-! ## Shifts -/

/-- Only variables stand below a function that has a value, so there is no quarter turn to take out. -/
theorem shiftRule_eq_none {x : Expr} (hd : Defined p.reading x) : shiftRule x = none := by
  unfold shiftRule
  split
  · obtain ⟨v, hv⟩ := hd.arg
    simp at hv
  · rfl

/-! ## Passes -/

theorem applyRules_restates {x : Expr} (hx : Readable p x) : Restates p x (applyRules x) := by
  rw [applyRules, shiftRule_eq_none hx.defined, Option.none_or]
  cases hpyth : pythagoreanRule x with
  | some y => exact pythagoreanRule_restates hx hpyth
  | none =>
    cases hcompl : complementRule x with
    | some y => exact complementRule_restates hx hcompl
    | none =>
      cases htan : tangentRule x with
      | some y => exact tangentRule_restates hx htan
      | none => exact hx.self

/-- A pass goes on with the rules once a node has been rebuilt. -/
theorem Restates.rules {x y : Expr} (h : Restates p x y) : Restates p x (applyRules y) :=
  h.trans (applyRules_restates h.toReadable)

mutual

/-- A pass makes a tidy tree of the same value out of any tree with a value. -/
theorem trigPass_restates : ∀ x : Expr, Defined p.reading x → Restates p x (trigPass x)
  | add ts, h => by
    rw [trigPass]
    exact (trigPassAll_restates ts ((defined_add ts).1 h)).sum.rules
  | mul fs, h => by
    rw [trigPass]
    exact (trigPassAll_restates fs ((defined_mul fs).1 h)).product.rules
  | pow b x, h => by
    obtain ⟨n, rfl⟩ := h.exponent
    have hbase := trigPass_restates b ((defined_pow b n).1 h).1
    obtain ⟨hdef, hvalue⟩ := hbase.pow h
    have hpow := restates_power hbase.tidy (tidy_rat n) hdef
    -- The exponent is a leaf, and no rule fits a leaf.
    show Restates p (pow b (rat n)) (applyRules (power (trigPass b) (rat n)))
    exact Restates.rules ⟨hpow.toReadable, hpow.value.trans hvalue⟩
  | fn f x, h => by
    obtain ⟨v, rfl⟩ := h.arg
    show Restates p (fn f (var v)) (applyRules (apply f (var v)))
    rw [apply_var]
    exact applyRules_restates ⟨trivial, h⟩
  | rat q, h => applyRules_restates ⟨trivial, h⟩
  | var v, h => applyRules_restates ⟨trivial, h⟩
  | pi, h | e, h | i, h | infinity, h | undefined, h => h.elim

theorem trigPassAll_restates :
    ∀ xs : List Expr, (∀ x ∈ xs, Defined p.reading x) → RestatesAll p xs (trigPassAll xs)
  | [], _ => .nil
  | x :: xs, h => by
    obtain ⟨hx, hxs⟩ := List.forall_mem_cons.1 h
    rw [trigPassAll]
    exact .cons (trigPass_restates x hx) (trigPassAll_restates xs hxs)

end

theorem trigPasses_keepsValue (n : Nat) (x : Expr) : KeepsValue p.reading x (trigPasses n x) := by
  induction n generalizing x with
  | zero => exact .refl _ x
  | succ n ih =>
    rw [trigPasses]
    split
    · intro h
      have hpass := trigPass_restates x h
      exact (KeepsValue.trans (fun _ => ⟨hpass.defined, hpass.value⟩) (ih _)) h
    · exact .refl _ x

/-- The trigonometric identities keep the value at every point of the circle. -/
theorem trigIdentities_keepsValue (p : CirclePoint) (x : Expr) :
    KeepsValue p.reading x x.trigIdentities :=
  trigPasses_keepsValue 6 x

end Expr

end SymbolicSolver
