import SymbolicSolver.Proofs.Canonical.Combination

/-!
# The order of operands

Sums and products of finite trees do not depend on the order of their operands. The collected bases of a product come
in order of first appearance and their exponents are added up pairwise, but the exponent collected under a base has the
combination of all the exponents that go with it, so other orders collect the same pairs in another order. The rebuilt
powers are then the same up to their order, which a further product does not look at either, and factors can be sorted
in one way only.
-/

namespace SymbolicSolver.Expr

open Token (IsName)

variable {b x : Expr} {xs ys fs us : List Expr} {gs hs : List (Expr × Expr)}

/-! ## Collected exponents -/

theorem flattenFactors_perm (h : xs.Perm ys) : (flattenFactors xs).Perm (flattenFactors ys) := by
  have hcons (x : Expr) (xs : List Expr) : flattenFactors (x :: xs) = flattenFactors [x] ++ flattenFactors xs :=
    flattenFactors_append [x] xs
  induction h with
  | nil => exact .refl _
  | @cons x xs ys _ ih =>
    rw [hcons x xs, hcons x ys]
    exact ih.append_left _
  | swap x y xs =>
    rw [hcons y, hcons x xs, hcons x (y :: xs), hcons y xs, ← List.append_assoc, ← List.append_assoc]
    exact List.perm_append_comm.append_right _
  | trans _ _ ih ih' => exact ih.trans ih'

/-- The exponents that go with a base. -/
def exponents (b : Expr) (fs : List Expr) : List Expr :=
  (fs.filter fun f => (asBase f).1 = b).map fun f => (asBase f).2

theorem exponents_perm (h : fs.Perm us) (b : Expr) : (exponents b fs).Perm (exponents b us) := (h.filter _).map _

theorem exponents_concat (b : Expr) (fs : List Expr) (f : Expr) :
    exponents b (fs ++ [f]) = exponents b fs ++ if (asBase f).1 = b then [(asBase f).2] else [] := by
  by_cases hb : (asBase f).1 = b <;> simp [exponents, hb]

theorem exponents_eq_nil (h : b ∉ fs.map fun f => (asBase f).1) : exponents b fs = [] := by
  rw [exponents, List.filter_eq_nil_iff.2, List.map_nil]
  intro f hf
  simpa using fun heq => h (List.mem_map.2 ⟨f, hf, heq⟩)

/-- A base that has been collected gets a further exponent in its place. -/
theorem collectBase_of_mem (x : Expr) (h : b ∈ gs.map Prod.fst) : ∃ pre y post, gs = pre ++ (b, y) :: post ∧
    collectBase b x gs = pre ++ (b, sum [y, x]) :: post := by
  induction gs with
  | nil => cases h
  | cons g gs ih =>
    obtain ⟨c, y⟩ := g
    by_cases hc : c = b
    · subst hc
      exact ⟨[], y, gs, rfl, by rw [collectBase, if_pos rfl, List.nil_append]⟩
    · have hmem : b ∈ gs.map Prod.fst := by simpa [Ne.symm hc] using h
      obtain ⟨pre, z, post, rfl, heq⟩ := ih hmem
      exact ⟨(c, y) :: pre, z, post, rfl, by rw [collectBase, if_neg hc, heq, List.cons_append]⟩

/-- The bases of the factors are collected once each, with what their exponents add up to. -/
structure Collects (fs : List Expr) (gs : List (Expr × Expr)) : Prop where
  nodup : (gs.map Prod.fst).Nodup
  bases : ∀ b, b ∈ gs.map Prod.fst ↔ b ∈ fs.map fun f => (asBase f).1
  exponent : ∀ g ∈ gs, Ordinary g.2 ∧ combination [g.2] = combination (exponents g.1 fs)

namespace Collects

/-- One more factor adds its exponent to that of its base, or brings the base in. -/
theorem concat (h : Collects fs gs) {f : Expr} (hf : Ordinary (asBase f).2) :
    Collects (fs ++ [f]) (collectBase (asBase f).1 (asBase f).2 gs) := by
  have hother : ∀ g ∈ gs, g.1 ≠ (asBase f).1 →
      Ordinary g.2 ∧ combination [g.2] = combination (exponents g.1 (fs ++ [f])) := by
    intro g hg hne
    rw [exponents_concat, if_neg hne.symm, List.append_nil]
    exact h.exponent g hg
  by_cases hb : (asBase f).1 ∈ gs.map Prod.fst
  · -- the base is there, and only its exponent changes
    obtain ⟨pre, y, post, rfl, heq⟩ := collectBase_of_mem (asBase f).2 hb
    obtain ⟨hy, hcombination⟩ := h.exponent _ (List.mem_append_right _ List.mem_cons_self)
    have hsame : ((pre ++ ((asBase f).1, sum [y, (asBase f).2]) :: post).map Prod.fst) =
        (pre ++ ((asBase f).1, y) :: post).map Prod.fst := by simp
    have hnodup := h.nodup
    rw [List.map_append, List.map_cons, List.nodup_middle, List.nodup_cons, ← List.map_append] at hnodup
    rw [heq]
    refine ⟨hsame ▸ h.nodup, fun b => ?_, fun g hg => ?_⟩
    · rw [hsame, h.bases, List.map_append, List.mem_append, List.map_singleton, List.mem_singleton]
      exact ⟨.inl, fun hmem => hmem.elim id fun hbase => hbase ▸ (h.bases _).1 hb⟩
    · rcases List.mem_append.1 hg with hg | hg
      · exact hother g (List.mem_append_left _ hg) fun hbase =>
          hnodup.1 (hbase ▸ List.mem_map_of_mem (List.mem_append_left _ hg))
      rcases List.mem_cons.1 hg with rfl | hg
      · have hoperands : ∀ z ∈ [y, (asBase f).2], Ordinary z := by simpa using ⟨hy, hf⟩
        refine ⟨ordinary_sum hoperands, ?_⟩
        rw [combination_sum hoperands, combination_cons, hcombination, exponents_concat, if_pos rfl, combination_append]
      · exact hother g (List.mem_append_right _ (List.mem_cons_of_mem _ hg)) fun hbase =>
          hnodup.1 (hbase ▸ List.mem_map_of_mem (List.mem_append_right _ hg))
  · -- the base is new, so no exponent has gone with it
    have hnil : exponents (asBase f).1 fs = [] := exponents_eq_nil fun hmem => hb ((h.bases _).2 hmem)
    rw [collectBase_of_notMem hb]
    refine ⟨?_, fun b => ?_, fun g hg => ?_⟩
    · rw [List.map_append, List.map_singleton, ← List.concat_eq_append]
      exact h.nodup.concat hb
    · simp only [List.map_append, List.map_singleton, List.mem_append, h.bases]
    · rcases List.mem_append.1 hg with hg | hg
      · exact hother g hg fun hbase => hb (hbase ▸ List.mem_map_of_mem hg)
      · obtain rfl := List.mem_singleton.1 hg
        rw [exponents_concat, if_pos rfl, hnil, List.nil_append]
        exact ⟨hf, rfl⟩

theorem foldl (h : Collects fs gs) (hus : ∀ f ∈ us, Ordinary (asBase f).2) :
    Collects (fs ++ us) (us.foldl (fun gs f => collectBase (asBase f).1 (asBase f).2 gs) gs) := by
  induction us generalizing fs gs with
  | nil => simpa using h
  | cons f us ih =>
    obtain ⟨hf, hus⟩ := List.forall_mem_cons.1 hus
    simpa using ih (h.concat hf) hus

theorem mem_of_perm (hg : Collects fs gs) (hh : Collects us hs) (h : fs.Perm us) {g : Expr × Expr} (hmem : g ∈ gs) :
    g ∈ hs := by
  have hbase : g.1 ∈ hs.map Prod.fst :=
    (hh.bases _).2 ((h.map _).mem_iff.1 ((hg.bases _).1 (List.mem_map_of_mem hmem)))
  obtain ⟨p, hp, hfst⟩ := List.mem_map.1 hbase
  obtain ⟨hx, hgx⟩ := hg.exponent g hmem
  obtain ⟨hy, hpy⟩ := hh.exponent p hp
  have hsnd : g.2 = p.2 := eq_of_combination hx.regular hy.regular hx.names
    (by rw [hgx, hpy, hfst, combination_perm (exponents_perm h g.1)])
  rw [show g = p from Prod.ext hfst.symm hsnd]
  exact hp

/-- Other orders of the factors collect the same pairs. -/
theorem perm (hg : Collects fs gs) (hh : Collects us hs) (h : fs.Perm us) : gs.Perm hs :=
  (List.perm_ext_iff_of_nodup (.of_map _ hg.nodup) (.of_map _ hh.nodup)).2 fun _ =>
    ⟨hg.mem_of_perm hh h, hh.mem_of_perm hg h.symm⟩

end Collects

/-! ## One round of the product -/

theorem Ordinary.asBase {f : Expr} (h : Ordinary f) : Ordinary (asBase f).1 ∧ Ordinary (asBase f).2 := by
  cases f with
  | pow b x =>
    obtain ⟨hb, hx⟩ := (compositional_noInfinity.pow b x).1 h.noInfinity
    exact ⟨⟨h.regular.2.1, hb, h.names.1⟩, ⟨h.regular.2.2, hx, h.names.2⟩⟩
  | _ => exact ⟨h, ordinary_rat 1⟩

theorem flattenFactors_ordinary (h : ∀ f ∈ fs, Ordinary f) : ∀ f ∈ flattenFactors fs, Ordinary f := by
  refine fun f hf => (flattenFactors_all (fun {ys} hy g hg => ?_) h f hf).1
  exact ⟨(regular_mul.1 hy.regular).2 g hg, (compositional_noInfinity.mul ys).1 hy.noInfinity g hg,
    (hereditary_varsIn.mul ys).1 hy.names g hg⟩

theorem collects_collectBases (h : ∀ f ∈ fs, Ordinary f) : Collects (plainFactors fs) (collectBases fs).others := by
  have hstart : Collects [] [] := ⟨by simp, by simp, by simp⟩
  rw [collectBases_parts]
  simpa using hstart.foldl fun f hf => (h f (mem_plainFactors.1 hf).1).asBase.2

theorem assemble_perm (c : Rat) (inf : Bool) (hfs : ∀ f ∈ fs, VarsIn IsName f) (h : fs.Perm us) :
    assemble c fs inf = assemble c us inf := by
  simp only [assemble, sortFactors_eq_of_perm hfs h]

theorem plainProduct_perm (hx : ∀ x ∈ xs, Ordinary x) (h : xs.Perm ys) : plainProduct xs = plainProduct ys := by
  have hperm := flattenFactors_perm h
  have hnames : ∀ f ∈ plainFactors (flattenFactors xs), VarsIn IsName f := fun f hf =>
    (flattenFactors_ordinary hx f (mem_plainFactors.1 hf).1).names
  rw [plainProduct, plainProduct, collectRebuilt_parts, collectRebuilt_parts]
  simp only [(hperm.filterMap rat?).prod_eq, hperm.mem_iff]
  exact assemble_perm _ _ hnames (hperm.filter _)

section Product

variable {power : Expr → Expr → Expr} {product : List Expr → Expr}

theorem multiplyOut_of_notLone (c : Rat) (hlone : ∀ ts, fs ≠ [add ts]) : multiplyOut product ⟨c, false, fs⟩ =
    if c = 0 then zero else if fs.any isProduct then product (fs ++ [rat c]) else assemble c fs false := by
  simp only [multiplyOut, Bool.false_eq_true, if_false]

variable (hproduct : ∀ {fs us}, (∀ f ∈ fs, Ordinary f) → fs.Perm us → product fs = product us)

include hproduct

theorem multiplyOut_perm (c : Rat) (hfs : ∀ f ∈ fs, Ordinary f) (h : fs.Perm us) :
    multiplyOut product ⟨c, false, fs⟩ = multiplyOut product ⟨c, false, us⟩ := by
  by_cases hlone : ∃ ts, fs = [add ts]
  · obtain ⟨ts, rfl⟩ := hlone
    rw [List.singleton_perm.1 h]
  · have hall : ∀ f ∈ fs ++ [rat c], Ordinary f := List.forall_mem_append.2 ⟨hfs, by simpa using ordinary_rat c⟩
    rw [multiplyOut_of_notLone c fun ts hts => hlone ⟨ts, hts⟩,
      multiplyOut_of_notLone c fun ts hts => hlone ⟨ts, List.perm_singleton.1 (hts ▸ h)⟩, h.any_eq,
      hproduct hall (h.append_right _), assemble_perm c false (fun f hf => (hfs f hf).names) h]

/-- One round does not look at the order of the factors if the further products do not. -/
theorem productStep_perm (hpower : ∀ {b x}, Ordinary b → Ordinary x → power b x = undefined ∨ Ordinary (power b x))
    (hfs : ∀ f ∈ fs, Ordinary f) (h : fs.Perm us) : productStep power product fs = productStep power product us := by
  have hflat := flattenFactors_ordinary hfs
  have hperm := flattenFactors_perm h
  have hinf : infinity ∉ flattenFactors fs := fun hmem => by simpa [Expr.infinitySign?] using (hflat _ hmem).infinitySign?
  have hbases := collectBases_all (P := fun b x => Ordinary b ∧ Ordinary x)
    (fun hx hy => ⟨hx.1, ordinary_sum (by simpa using ⟨hx.2, hy.2⟩)⟩) fun f hf _ _ => (hflat f hf).asBase
  have hgroups : (collectBases (flattenFactors fs)).others.Perm (collectBases (flattenFactors us)).others :=
    (collects_collectBases hflat).perm
      (collects_collectBases (flattenFactors_ordinary fun u hu => hfs u (h.mem_iff.2 hu))) (hperm.filter _)
  -- the same powers are rebuilt, in another order
  have hrebuilt := hgroups.map fun g => power g.1 g.2
  have hcoeff : (collectBases (flattenFactors us)).coeff = (collectBases (flattenFactors fs)).coeff := by
    rw [collectBases_parts, collectBases_parts]
    exact (hperm.symm.filterMap rat?).prod_eq
  have hfinite : (collectBases (flattenFactors fs)).hasInfinity = false ∧
      (collectBases (flattenFactors us)).hasInfinity = false := by
    rw [collectBases_parts, collectBases_parts]
    simpa [hperm.mem_iff] using hinf
  simp only [productStep, ← hperm.any_eq, ← hrebuilt.any_eq, hcoeff, hfinite]
  split
  · rfl
  split
  · rfl
  rename_i hdefined
  have hordinary : ∀ f ∈ (collectBases (flattenFactors fs)).others.map fun g => power g.1 g.2, Ordinary f := by
    intro f hf
    obtain ⟨g, hg, rfl⟩ := List.mem_map.1 hf
    refine (hpower (hbases g hg).1 (hbases g hg).2).resolve_left fun hundef => hdefined ?_
    exact List.any_eq_true.2 ⟨_, hf, by simpa using hundef⟩
  have hinf : infinity ∉ (collectBases (flattenFactors fs)).others.map fun g => power g.1 g.2 := fun hmem => by
    simpa [Expr.infinitySign?] using (hordinary _ hmem).infinitySign?
  rw [collectRebuilt_parts, collectRebuilt_parts, (hrebuilt.filterMap rat?).prod_eq]
  simp only [← hrebuilt.mem_iff, hinf, decide_false, Bool.or_false]
  exact multiplyOut_perm hproduct _ (fun f hf => hordinary f (mem_plainFactors.1 hf).1) (hrebuilt.filter _)

end Product

/-! ## All rounds -/

theorem powerWithin_ordinary (n : Nat) (hb : Ordinary b) (hx : Ordinary x) :
    powerWithin n b x = undefined ∨ Ordinary (powerWithin n b x) :=
  ((within_wellFormed n).2 b x hb.regular.wellFormed hx.regular.wellFormed).imp id fun hregular =>
    ⟨hregular, (compositional_noInfinity.within n).2 b x hb.noInfinity hx.noInfinity,
      (hereditary_varsIn.within n).2 b x hb.names hx.names⟩

theorem productWithin_perm (n : Nat) (hfs : ∀ f ∈ fs, Ordinary f) (h : fs.Perm us) :
    productWithin n fs = productWithin n us := by
  induction n generalizing fs us with
  | zero => exact productStep_perm plainProduct_perm (powerWithin_ordinary 0) hfs h
  | succ n ih => exact productStep_perm ih (powerWithin_ordinary n) hfs h

theorem sizeAll_perm (h : xs.Perm ys) : sizeAll xs = sizeAll ys := by
  induction h with
  | nil => rfl
  | cons x _ ih => rw [sizeAll, sizeAll, ih]
  | swap x y xs =>
    simp only [sizeAll]
    omega
  | trans _ _ ih ih' => exact ih.trans ih'

theorem product_perm (hx : ∀ x ∈ xs, Ordinary x) (h : xs.Perm ys) : product xs = product ys := by
  rw [product, product, sizeAll_perm h, productWithin_perm _ hx h]

/-! ## Finite trees that are constructed -/

theorem Constructed.ordinary (h : Constructed x) (hfinite : x.isFinite = true) (hnames : VarsIn IsName x) : Ordinary x := by
  refine ⟨(constructed_wellFormed h).resolve_left ?_, noInfinity_of_isFinite hfinite, hnames⟩
  rintro rfl
  simp [isFinite, exist] at hfinite

/-- Neither sums nor products of finite trees depend on the order of the operands, and sums can be put together first. -/
theorem order_independent (hx : ∀ x ∈ xs, Constructed x ∧ x.isFinite = true ∧ VarsIn IsName x)
    (hy : ∀ y ∈ ys, Constructed y ∧ y.isFinite = true ∧ VarsIn IsName y) :
    (xs.Perm ys → sum xs = sum ys ∧ product xs = product ys) ∧ sum [sum xs, sum ys] = sum (xs ++ ys) := by
  have hordinary {zs : List Expr} (hz : ∀ z ∈ zs, Constructed z ∧ z.isFinite = true ∧ VarsIn IsName z) :
      ∀ z ∈ zs, Ordinary z := fun z hmem => (hz z hmem).1.ordinary (hz z hmem).2.1 (hz z hmem).2.2
  exact ⟨fun h => ⟨sum_perm (hordinary hx) h, product_perm (hordinary hx) h⟩, sum_sum_sum (hordinary hx) (hordinary hy)⟩

/-- A variable and the square root of eight, in both orders. -/
theorem order_independent_root :
    ([var "x", sqrt (rat 8)].Perm [sqrt (rat 8), var "x"] ∧
        ∀ x ∈ [var "x", sqrt (rat 8)], Constructed x ∧ x.isFinite = true ∧ VarsIn IsName x) ∧
      sum [var "x", sqrt (rat 8)] = sum [sqrt (rat 8), var "x"] ∧
      product [var "x", sqrt (rat 8)] = product [sqrt (rat 8), var "x"] ∧
      sum [sum [var "x", sqrt (rat 8)], sum [sqrt (rat 8), var "x"]] =
        sum ([var "x", sqrt (rat 8)] ++ [sqrt (rat 8), var "x"]) := by
  have hname : IsName "x" := ⟨'x', [], rfl, rfl, by simp⟩
  have hfinite : (sqrt (rat 8)).isFinite = true := by decide +kernel
  have hx : ∀ x ∈ [var "x", sqrt (rat 8)], Constructed x ∧ x.isFinite = true ∧ VarsIn IsName x := by
    simp only [List.forall_mem_cons, List.not_mem_nil, false_implies, implies_true, and_true]
    exact ⟨⟨.var "x", by decide, hname⟩, .power (.rat 8) (.rat _), hfinite, hereditary_varsIn.power trivial trivial⟩
  have hperm : [var "x", sqrt (rat 8)].Perm [sqrt (rat 8), var "x"] := .swap _ _ _
  have hy : ∀ y ∈ [sqrt (rat 8), var "x"], Constructed y ∧ y.isFinite = true ∧ VarsIn IsName y := fun y hy =>
    hx y (hperm.mem_iff.2 hy)
  have h := order_independent hx hy
  exact ⟨⟨hperm, hx⟩, (h.1 hperm).1, (h.1 hperm).2, h.2⟩

end SymbolicSolver.Expr
