import SymbolicSolver.Proofs.Canonical.Applied
import SymbolicSolver.Proofs.Canonical.Stable

/-!
# Which trees are stable

A constructed tree is stable, that is, it is the same tree when it is built anew from the bottom up, if no product in it
has two factors with the same base. Nothing else can change: its powers and applications stand, the terms of its sums
have different rests, and its nodes are in order already. A product with two factors of one base changes, since building
it anew puts the two together and makes it lighter; so this is just when all subtrees are stable.

Such a product comes about where exponents add up to a whole number, and the power of a power becomes a power of another
base, which may be among the factors already.
-/

namespace SymbolicSolver.Expr

variable {x t : Expr} {ts fs : List Expr}

/-! ## Finite trees -/

theorem isFinite_add : (add ts).isFinite = true ↔ ∀ t ∈ ts, t.isFinite = true := by
  simp [isFinite, exist, existAny_eq_false]

theorem isFinite_mul : (mul fs).isFinite = true ↔ ∀ f ∈ fs, f.isFinite = true := by
  simp [isFinite, exist, existAny_eq_false]

theorem isFinite_pow {b : Expr} : (pow b x).isFinite = true ↔ b.isFinite = true ∧ x.isFinite = true := by
  simp [isFinite, exist]

theorem isFinite_fn {f : Func} : (fn f x).isFinite = true ↔ x.isFinite = true := by
  simp [isFinite, exist]

theorem ne_undefined_of_isFinite (h : x.isFinite = true) : x ≠ undefined := by
  rintro rfl
  cases h

theorem ne_infinity_of_isFinite (h : x.isFinite = true) : x ≠ infinity := by
  rintro rfl
  cases h

theorem infinitySign?_of_isFinite (h : x.isFinite = true) : x.infinitySign? = none := by
  unfold infinitySign?
  split
  · cases h
  · exact absurd rfl (ne_infinity_of_isFinite (isFinite_mul.1 h infinity (by simp)))
  · rfl

/-! ## Sums -/

theorem Regular.rejoins (h : Regular t) (hs : t.isSum = false) (hr : t.rat? = none) : Rejoins t := by
  obtain ⟨c, fs, rfl, hrow, -, hc⟩ := h.row hs
  have hsplit := splitCoeff_times hrow.notRat hrow.notProduct c
  refine ⟨?_, ?_⟩
  · rw [hsplit]
    exact hc (isZero_of_rat?_eq_none hr)
  · rw [hsplit, withCoeff_times hrow.notRat hrow.notProduct]

/-- The terms of a finite sum make that sum. -/
theorem Settled.sum_eq (h : Settled (add ts)) (hfin : (add ts).isFinite = true) : sum ts = add ts := by
  obtain ⟨hts, hregular⟩ := regular_add.1 (h.regular (by simp))
  have hfin := isFinite_add.1 hfin
  exact hts.sum_eq (fun t ht => ne_undefined_of_isFinite (hfin t ht)) (fun t ht => infinitySign?_of_isFinite (hfin t ht))
    (fun t ht hr => (hregular t ht).rejoins (hts.notSum t ht) hr) hts.twoTerms

/-! ## Products -/

/-- No two factors, the coefficient apart, have the same base. -/
def DistinctBases (fs : List Expr) : Prop := ((fs.filter fun f => f.rat?.isNone).map factorBase).Nodup

instance (fs : List Expr) : Decidable (DistinctBases fs) := inferInstanceAs (Decidable (List.Nodup _))

theorem plainFactors_of_isFinite (h : ∀ f ∈ fs, f.isFinite = true) :
    plainFactors fs = fs.filter fun f => f.rat?.isNone :=
  List.filter_congr fun f hf => by simp [ne_infinity_of_isFinite (h f hf)]

theorem RegularRow.kept (h : RegularRow fs) (hsettled : ∀ f ∈ fs, Settled f) (hfin : ∀ f ∈ fs, f.isFinite = true)
    (hbases : (fs.map factorBase).Nodup) : KeptRow fs where
  notRat := h.notRat
  notProduct := h.notProduct
  bases := hbases
  sorted := by
    have hsorted := h.sorted
    rwa [plainFactors_of_isFinite hfin, List.filter_eq_self.2 fun f hf => by simp [h.notRat f hf]] at hsorted
  ne_undefined f hf := ne_undefined_of_isFinite (hfin f hf)
  ne_infinity f hf := ne_infinity_of_isFinite (hfin f hf)
  rebuilt f hf := (hsettled f hf).powerStep_asBase (ne_undefined_of_isFinite (hfin f hf))

/-- The factors of a finite product with different bases make that product. -/
theorem Settled.product_eq (h : Settled (mul fs)) (hfin : (mul fs).isFinite = true) (hbases : DistinctBases fs) :
    product fs = mul fs := by
  obtain ⟨hfs, hregular⟩ := regular_mul.1 (h.regular (by simp))
  have hfin := isFinite_mul.1 hfin
  have hfilter {gs : List Expr} (hrow : RegularRow gs) : (gs.filter fun f => f.rat?.isNone) = gs :=
    List.filter_eq_self.2 fun f hf => by simp [hrow.notRat f hf]
  rcases hfs.cases hregular with hrow | ⟨c, gs, rfl, hc0, hc1, hne, hrow, hlone⟩
  · rw [DistinctBases, hfilter hrow] at hbases
    exact (hrow.kept h.factors hfin hbases).product_eq hfs.twoFactors
  · rw [DistinctBases, List.filter_cons_of_neg (by simp [rat?]), hfilter hrow] at hbases
    have hkept := hrow.kept (fun f hf => h.factors f (List.mem_cons_of_mem _ hf))
      (fun f hf => hfin f (List.mem_cons_of_mem _ hf)) hbases
    exact hkept.product_scaled_eq hc0 hc1 hne hlone

/-- Factors of one base are put together. -/
theorem Settled.product_lt (h : Settled (mul fs)) (hfin : (mul fs).isFinite = true) (hbases : ¬ DistinctBases fs) :
    weight (product fs) < weight (mul fs) := by
  obtain ⟨hfs, hregular⟩ := regular_mul.1 (h.regular (by simp))
  have hfin := isFinite_mul.1 hfin
  have hgathered := gathered_collectBases hfs.notProduct
  rcases hgathered.all_single_or_saved with hsingle | ⟨f, hf, hsaved⟩
  · -- bases that have not been put together are different
    have hnodup := nodup_collectBases fs
    rw [hsingle, plainFactors_of_isFinite hfin, List.map_map] at hnodup
    exact absurd (by simpa [DistinctBases, Function.comp_def, asBase_fst] using hnodup) hbases
  · obtain ⟨hf, hr, -⟩ := mem_plainFactors.1 hf
    have hpos := (h.factors f hf).asBase_pos (ne_undefined_of_isFinite (hfin f hf)) hr (hfs.notProduct f hf)
    have hle : weight (product fs) ≤ groupsWeight (collectBases fs).others := by
      obtain ⟨k, hk⟩ := roundsFor_eq (sizeAll fs)
      have hstep := weight_productStep_collected (within_weight (k + 3)).2 (within_weight (k + 3)).1 fs
      rw [flattenFactors_of_notProduct hfs.notProduct] at hstep
      rwa [product, hk, productWithin]
    rw [weight_plainFactors] at hsaved
    rw [weight_mul]
    omega

/-! ## Subtrees -/

theorem self_mem_subtrees (x : Expr) : x ∈ x.subtrees := by
  cases x <;> simp [subtrees]

theorem subtrees_subset_subtreesAll {xs : List Expr} (hx : x ∈ xs) : ∀ y ∈ x.subtrees, y ∈ subtreesAll xs := by
  induction xs with
  | nil => simp at hx
  | cons z xs ih =>
    intro y hy
    rw [subtreesAll, List.mem_append]
    rcases List.mem_cons.1 hx with rfl | hx
    · exact .inr hy
    · exact .inl (ih hx y hy)

mutual

theorem subtree_trans : ∀ {x y z : Expr}, y ∈ x.subtrees → z ∈ y.subtrees → z ∈ x.subtrees
  | add ts, y, z, hy, hz => by
    rcases List.mem_cons.1 hy with rfl | hy
    · exact hz
    · exact List.mem_cons_of_mem _ (subtreeAll_trans hy hz)
  | mul fs, y, z, hy, hz => by
    rcases List.mem_cons.1 hy with rfl | hy
    · exact hz
    · exact List.mem_cons_of_mem _ (subtreeAll_trans hy hz)
  | pow b x, y, z, hy, hz => by
    rcases List.mem_cons.1 hy with rfl | hy
    · exact hz
    · refine List.mem_cons_of_mem _ (List.mem_append.2 ?_)
      exact (List.mem_append.1 hy).imp (subtree_trans · hz) (subtree_trans · hz)
  | fn f x, y, z, hy, hz => by
    rcases List.mem_cons.1 hy with rfl | hy
    · exact hz
    · exact List.mem_cons_of_mem _ (subtree_trans hy hz)
  | rat _, y, z, hy, hz | pi, y, z, hy, hz | e, y, z, hy, hz | i, y, z, hy, hz | infinity, y, z, hy, hz
  | undefined, y, z, hy, hz | var _, y, z, hy, hz => List.mem_singleton.1 hy ▸ hz

theorem subtreeAll_trans : ∀ {xs : List Expr} {y z : Expr}, y ∈ subtreesAll xs → z ∈ y.subtrees → z ∈ subtreesAll xs
  | [], y, z, hy, _ => by simp [subtreesAll] at hy
  | x :: xs, y, z, hy, hz => by
    rw [subtreesAll, List.mem_append] at hy ⊢
    exact hy.imp (subtreeAll_trans · hz) (subtree_trans · hz)

end

mutual

theorem settled_subtree : ∀ {x : Expr}, Settled x → x.isFinite = true → ∀ y ∈ x.subtrees, Settled y ∧ y.isFinite = true
  | add _, h, hfin => List.forall_mem_cons.2 ⟨⟨h, hfin⟩, settled_subtreeAll h.terms (isFinite_add.1 hfin)⟩
  | mul _, h, hfin => List.forall_mem_cons.2 ⟨⟨h, hfin⟩, settled_subtreeAll h.factors (isFinite_mul.1 hfin)⟩
  | pow _ _, h, hfin => List.forall_mem_cons.2 ⟨⟨h, hfin⟩, List.forall_mem_append.2
      ⟨settled_subtree h.exponent (isFinite_pow.1 hfin).2, settled_subtree h.base (isFinite_pow.1 hfin).1⟩⟩
  | fn _ _, h, hfin => List.forall_mem_cons.2 ⟨⟨h, hfin⟩, settled_subtree h.arg (isFinite_fn.1 hfin)⟩
  | rat _, h, hfin | pi, h, hfin | e, h, hfin | i, h, hfin | infinity, h, hfin | undefined, h, hfin | var _, h, hfin =>
    fun _ hy => List.mem_singleton.1 hy ▸ ⟨h, hfin⟩

theorem settled_subtreeAll : ∀ {xs : List Expr}, (∀ x ∈ xs, Settled x) → (∀ x ∈ xs, x.isFinite = true) →
    ∀ y ∈ subtreesAll xs, Settled y ∧ y.isFinite = true
  | [], _, _ => by simp [subtreesAll]
  | x :: xs, h, hfin => by
    obtain ⟨hx, hxs⟩ := List.forall_mem_cons.1 h
    obtain ⟨hxfin, hxsfin⟩ := List.forall_mem_cons.1 hfin
    rw [subtreesAll]
    exact List.forall_mem_append.2 ⟨settled_subtreeAll hxs hxsfin, settled_subtree hx hxfin⟩

end

/-! ## Stability -/

mutual

/-- A finite settled tree whose products have different bases is stable. -/
theorem settled_rebuild : ∀ {x : Expr}, Settled x → x.isFinite = true → (∀ fs, mul fs ∈ x.subtrees → DistinctBases fs) →
    x.rebuild = x
  | add ts, h, hfin, hbases => by
    have hts := settled_rebuildAll h.terms (isFinite_add.1 hfin) fun fs hfs => hbases fs (List.mem_cons_of_mem _ hfs)
    rw [rebuild_add, map_rebuild hts, h.sum_eq hfin]
  | mul fs, h, hfin, hbases => by
    have hfs := settled_rebuildAll h.factors (isFinite_mul.1 hfin) fun gs hgs => hbases gs (List.mem_cons_of_mem _ hgs)
    rw [rebuild_mul, map_rebuild hfs, h.product_eq hfin (hbases fs List.mem_cons_self)]
  | pow b x, h, hfin, hbases => by
    have hb := settled_rebuild h.base (isFinite_pow.1 hfin).1 fun fs hfs =>
      hbases fs (List.mem_cons_of_mem _ (List.mem_append_right _ hfs))
    have hx := settled_rebuild h.exponent (isFinite_pow.1 hfin).2 fun fs hfs =>
      hbases fs (List.mem_cons_of_mem _ (List.mem_append_left _ hfs))
    obtain ⟨k, hk⟩ := roundsFor_eq (b.size + x.size)
    rw [rebuild_pow, hb, hx, power, hk]
    exact h.standing.1 _ _
  | fn f x, h, hfin, hbases => by
    have hx := settled_rebuild h.arg (isFinite_fn.1 hfin) fun fs hfs => hbases fs (List.mem_cons_of_mem _ hfs)
    rw [rebuild_fn, hx]
    exact h.standing.1
  | rat _, _, _, _ | pi, _, _, _ | e, _, _, _ | i, _, _, _ | infinity, _, _, _ | undefined, _, _, _ | var _, _, _, _ => rfl

theorem settled_rebuildAll : ∀ {xs : List Expr}, (∀ x ∈ xs, Settled x) → (∀ x ∈ xs, x.isFinite = true) →
    (∀ fs, mul fs ∈ subtreesAll xs → DistinctBases fs) → ∀ x ∈ xs, x.rebuild = x
  | [], _, _, _ => by simp
  | x :: xs, h, hfin, hbases => by
    obtain ⟨hx, hxs⟩ := List.forall_mem_cons.1 h
    obtain ⟨hxfin, hxsfin⟩ := List.forall_mem_cons.1 hfin
    refine List.forall_mem_cons.2 ⟨settled_rebuild hx hxfin fun fs hfs => ?_, settled_rebuildAll hxs hxsfin fun fs hfs => ?_⟩
    · exact hbases fs (List.mem_append_right _ hfs)
    · exact hbases fs (List.mem_append_left _ hfs)

end

/-! ## Formulas -/

theorem constructed_neg (h : Constructed x) : Constructed (-x) := .product (by simpa using ⟨.rat (-1), h⟩)

theorem constructed_atom (s : String) : Constructed (Postfix.atom s) := by
  unfold Postfix.atom
  split_ifs
  · exact .pi
  · exact .e
  · exact .i
  · exact .infinity
  · exact .var s

theorem constructed_call {s : String} {y : Expr} (h : Constructed x) (hcall : Postfix.call? s x = some y) :
    Constructed y := by
  unfold Postfix.call? at hcall
  split at hcall
  · cases hcall
    exact .power h (.rat _)
  split at hcall
  · cases hcall
    exact .power .e h
  · obtain ⟨f, -, rfl⟩ := Option.map_eq_some_iff.1 hcall
    exact .call f h

theorem constructed_combine {op : Token} {a b y : Expr} (ha : Constructed a) (hb : Constructed b)
    (hop : Postfix.combine? op a b = some y) : Constructed y := by
  unfold Postfix.combine? at hop
  split at hop <;> cases hop
  · exact .sum (by simpa using ⟨ha, hb⟩)
  · exact .sum (by simpa using ⟨ha, constructed_neg hb⟩)
  · exact .product (by simpa using ⟨ha, hb⟩)
  · exact .product (by simpa using ⟨ha, .power hb (.rat _)⟩)
  · exact .power ha hb

/-- A step of the evaluation constructs the new expression from those on the stack. -/
theorem constructed_evalStep {t : Token} {stack out : List Expr} (h : ∀ x ∈ stack, Constructed x)
    (hstep : Postfix.evalStep stack t = some out) : ∀ x ∈ out, Constructed x := by
  unfold Postfix.evalStep at hstep
  split at hstep
  · cases hstep
    exact List.forall_mem_cons.2 ⟨.rat _, h⟩
  · split at hstep <;> cases hstep
    obtain ⟨ha, hrest⟩ := List.forall_mem_cons.1 h
    exact List.forall_mem_cons.2 ⟨constructed_neg ha, hrest⟩
  · split at hstep
    · split at hstep <;> try cases hstep
      obtain ⟨hx, hrest⟩ := List.forall_mem_cons.1 h
      obtain ⟨y, hy, rfl⟩ := Option.map_eq_some_iff.1 hstep
      exact List.forall_mem_cons.2 ⟨constructed_call hx hy, hrest⟩
    · cases hstep
      exact List.forall_mem_cons.2 ⟨constructed_atom _, h⟩
  · split at hstep <;> try cases hstep
    obtain ⟨hb, h⟩ := List.forall_mem_cons.1 h
    obtain ⟨ha, hrest⟩ := List.forall_mem_cons.1 h
    obtain ⟨y, hy, rfl⟩ := Option.map_eq_some_iff.1 hstep
    exact List.forall_mem_cons.2 ⟨constructed_combine ha hb hy, hrest⟩

theorem constructed_evaluated {ts : List Token} {stack out : List Expr} (h : ∀ x ∈ stack, Constructed x)
    (hrun : ts.foldlM Postfix.evalStep stack = some out) : ∀ x ∈ out, Constructed x := by
  induction ts generalizing stack with
  | nil =>
    cases hrun
    exact h
  | cons t ts ih =>
    rw [List.foldlM_cons] at hrun
    obtain ⟨next, hstep, hrest⟩ := Option.bind_eq_some_iff.1 hrun
    exact ih (constructed_evalStep h hstep) hrest

/-- What is read from a text is constructed. -/
theorem constructed_read {s : String} (h : Expr.read s = .ok x) : Constructed x := by
  unfold Expr.read at h
  split at h
  · cases h
  · cases h
  split at h
  · cases h
  unfold Postfix.toExpr at h
  split at h
  · rename_i hrun
    cases h
    exact constructed_evaluated (by simp) hrun _ (by simp)
  · cases h

/-! ## Constructed trees -/

/-- The subtrees of a finite tree that is constructed or read are all stable just if no product among them has two
factors with the same base. -/
theorem stable_iff_distinct_bases (h : Constructed x ∨ ∃ s, Expr.read s = .ok x) (hfin : x.isFinite = true) :
    (∀ y ∈ x.subtrees, y.rebuild = y) ↔ ∀ fs, mul fs ∈ x.subtrees → DistinctBases fs := by
  have hconstructed : Constructed x := h.elim id fun ⟨_, hread⟩ => constructed_read hread
  have hsub := settled_subtree (constructed_settled hconstructed) hfin
  constructor
  · -- were a base in a product twice, the product would become lighter
    intro hstable fs hfs
    by_contra hbases
    have hfactors : fs.map rebuild = fs := map_rebuild fun f hf =>
      hstable f (subtree_trans hfs (List.mem_cons_of_mem _ (subtrees_subset_subtreesAll hf f (self_mem_subtrees f))))
    have hproduct := hstable _ hfs
    rw [rebuild_mul, hfactors] at hproduct
    have hlt := (hsub _ hfs).1.product_lt (hsub _ hfs).2 hbases
    rw [hproduct] at hlt
    exact lt_irrefl _ hlt
  · intro hbases y hy
    exact settled_rebuild (hsub y hy).1 (hsub y hy).2 fun fs hfs => hbases fs (subtree_trans hy hfs)

/-- One square root of `x²` beside `x` is a factor of its own. -/
theorem stable_iff_distinct_bases_root :
    product [var "x", sqrt (power (var "x") (rat 2))] = mul [var "x", pow (pow (var "x") (rat 2)) half] ∧
      (mul [var "x", pow (pow (var "x") (rat 2)) half]).isFinite = true ∧
      (mul [var "x", pow (pow (var "x") (rat 2)) half]).rebuild =
        mul [var "x", pow (pow (var "x") (rat 2)) half] := by
  have hsquare : power (var "x") (rat 2) = pow (var "x") (rat 2) := by decide
  have hroot : sqrt (pow (var "x") (rat 2)) = pow (pow (var "x") (rat 2)) half := by decide
  have hvalue : product [var "x", sqrt (power (var "x") (rat 2))] =
      mul [var "x", pow (pow (var "x") (rat 2)) half] := by
    rw [hsquare, hroot]
    cbv
  have hconstructed : Constructed (product [var "x", sqrt (power (var "x") (rat 2))]) :=
    .product (by simpa using ⟨.var "x", .power (.power (.var "x") (.rat 2)) (.rat _)⟩)
  rw [hvalue] at hconstructed
  have hfin : (mul [var "x", pow (pow (var "x") (rat 2)) half]).isFinite = true := by decide
  refine ⟨hvalue, hfin, (stable_iff_distinct_bases (.inl hconstructed) hfin).2 (fun fs hfs => ?_) _ (self_mem_subtrees _)⟩
  simp only [half, frac, subtrees, subtreesAll, List.mem_cons, List.mem_append, List.not_mem_nil, mul.injEq, reduceCtorEq,
    or_false] at hfs
  subst hfs
  decide

/-- Two square roots of `x²` make the factor `x²` beside the factor `x`. -/
theorem square_roots_not_stable :
    Expr.read "x*sqrt(x^2)*sqrt(x^2)" = .ok (mul [var "x", pow (var "x") (rat 2)]) ∧
      (mul [var "x", pow (var "x") (rat 2)]).isFinite = true ∧
      (mul [var "x", pow (var "x") (rat 2)]).rebuild = pow (var "x") (rat 3) := by
  have htokens : Token.tokenize "x*sqrt(x^2)*sqrt(x^2)" = .ok [.name "x", .times, .name "sqrt",
      .leftParen, .name "x", .caret, .number 2, .rightParen, .times, .name "sqrt", .leftParen, .name "x",
      .caret, .number 2, .rightParen] := by
    decide +kernel
  have hparsed : Postfix.ofInfix [.name "x", .times, .name "sqrt", .leftParen, .name "x", .caret,
      .number 2, .rightParen, .times, .name "sqrt", .leftParen, .name "x", .caret, .number 2,
      .rightParen] = .ok [.name "x", .name "x", .number 2, .caret, .name "sqrt", .times, .name "x",
      .number 2, .caret, .name "sqrt", .times] := by
    decide
  have hsquare : power (var "x") (rat 2) = pow (var "x") (rat 2) := by decide
  have hroot : sqrt (pow (var "x") (rat 2)) = pow (pow (var "x") (rat 2)) half := by decide
  have hfirst : product [var "x", pow (pow (var "x") (rat 2)) half] =
      mul [var "x", pow (pow (var "x") (rat 2)) half] := by
    cbv
  have hsecond : product [mul [var "x", pow (pow (var "x") (rat 2)) half],
      pow (pow (var "x") (rat 2)) half] = mul [var "x", pow (var "x") (rat 2)] := by
    cbv
  have hvalue : product [product [var "x", sqrt (power (var "x") (rat 2))],
      sqrt (power (var "x") (rat 2))] = mul [var "x", pow (var "x") (rat 2)] := by
    rw [hsquare, hroot, hfirst, hsecond]
  exact ⟨read_eq htokens hparsed (congrArg Except.ok hvalue), by decide, by cbv⟩

end SymbolicSolver.Expr
