import SymbolicSolver.Proofs.Canonical.FormSum

/-!
# Products and powers of canonical forms

The product of canonical expressions is canonical, and so is a whole power unless zero is raised to a negative one. No
power that a product rebuilds is itself a product, so a product does not start again, and a few rounds are enough.
-/

namespace SymbolicSolver.Expr

/-! ## Powers of bases -/

section Step

variable (power : Expr → Expr → Expr) (product : List Expr → Expr)

theorem powerStep_zero {b : Expr} (hb : Canonical b) : powerStep power product b (rat 0) = rat 1 := by
  unfold powerStep
  rw [if_neg (by simp [hb.ne_undefined]), if_pos (by simp [isZero])]
  rfl

theorem powerStep_one {b : Expr} (hb : Canonical b) : powerStep power product b (rat 1) = b := by
  unfold powerStep
  rw [if_neg (by simp [hb.ne_undefined]), if_neg (by simp [isZero]), if_pos (by simp [isOne])]

/-- A whole power of a rational. -/
theorem powerStep_rat {q : Rat} (hq : q ≠ 1) {n : Int} (h0 : n ≠ 0) (h1 : n ≠ 1) :
    powerStep power product (rat q) (rat n) = rationalPower product q n := by
  unfold powerStep
  rw [if_neg (by simp), if_neg (by simpa [isZero] using h0), if_neg (by simpa [isOne] using h1),
    if_neg (by simpa [isOne] using hq)]
  rfl

/-- A whole power of anything else is decided by the form of the base. -/
theorem powerStep_whole {b : Expr} (hb : Canonical b) (hr : b.rat? = none) {n : Int} (h0 : n ≠ 0)
    (h1 : n ≠ 1) : powerStep power product b (rat n) = powerOfBase power product b (rat n) := by
  have hone := isOne_of_rat?_eq_none hr
  unfold powerStep
  rw [if_neg (by simp [hb.ne_undefined]), if_neg (by simpa [isZero] using h0),
    if_neg (by simpa [isOne] using h1), hone, if_neg Bool.false_ne_true, hb.infinitySign?]
  cases hb with
  | rat q => cases hr
  | _ => rfl

/-- Bases that a product collects. -/
structure Base (b : Expr) : Prop where
  canonical : Canonical b
  power : PowerBase b

theorem Base.powerOfBase {b : Expr} (h : Base b) (x : Expr) :
    Expr.powerOfBase power product b x = pow b x := by
  unfold Expr.powerOfBase
  split
  · exact absurd rfl (h.power.notPower _ _)
  · exact absurd h.power.notProduct (by simp [isProduct])
  · rfl

/-- What a collected base becomes again: a rational, or a factor with this base. -/
structure Rebuilt (b x : Expr) : Prop where
  canonical : Canonical x
  notProduct : x.isProduct = false
  base : x.rat? = none → factorBase x = b

theorem Base.rebuilt {b : Expr} (h : Base b) : Rebuilt b b := by
  refine ⟨h.canonical, h.power.notProduct, fun _ => ?_⟩
  unfold factorBase
  split
  · exact absurd rfl (h.power.notPower _ _)
  · rfl

theorem rebuilt_rat (b : Expr) (q : Rat) : Rebuilt b (rat q) := ⟨.rat q, rfl, fun h => by cases h⟩

/-- A whole power of a rational other than zero is computed, or it is canonical. -/
theorem rationalPower_rebuilt {q : Rat} (hq : q ≠ 0) (hq1 : q ≠ 1) {n : Int}
    (h0 : n ≠ 0) (h1 : n ≠ 1) : Rebuilt (rat q) (rationalPower product q n) := by
  unfold rationalPower
  rw [if_neg hq, if_pos (Rat.den_intCast n), Rat.num_intCast]
  split
  · exact rebuilt_rat _ _
  · rename_i hfits
    have hbase : PowerBase (rat q) :=
      ⟨rfl, by simp, by simpa [isZero] using hq, by simpa [isOne] using hq1⟩
    refine ⟨.power (.rat q) hbase h0 h1 fun p hp => ?_, rfl, fun _ => rfl⟩
    simpa [← Expr.rat.inj hp] using hfits

/-- A whole power of a base is the rebuilt base. -/
theorem powerStep_base {b : Expr} (hb : Base b) (n : Int) :
    Rebuilt b (powerStep power product b (rat n)) := by
  obtain ⟨hc, hbase⟩ := hb
  by_cases h0 : n = 0
  · rw [h0, Int.cast_zero, powerStep_zero power product hc]
    exact rebuilt_rat b 1
  by_cases h1 : n = 1
  · rw [h1, Int.cast_one, powerStep_one power product hc]
    exact Base.rebuilt ⟨hc, hbase⟩
  cases hr : b.rat? with
  | some q =>
    obtain rfl := eq_rat_of_rat? hr
    have hq1 : q ≠ 1 := by simpa [isOne] using hbase.notOne
    rw [powerStep_rat power product hq1 h0 h1]
    exact rationalPower_rebuilt product (by simpa [isZero] using hbase.notZero) hq1 h0 h1
  | none =>
    rw [powerStep_whole power product hc hr h0 h1, Base.powerOfBase power product ⟨hc, hbase⟩]
    refine ⟨.power hc hbase h0 h1 fun q hq => ?_, rfl, fun _ => rfl⟩
    simp [hq, rat?] at hr

/-! ## Factors -/

theorem asBase_fst (f : Expr) : (asBase f).1 = factorBase f := by
  cases f <;> rfl

/-- Factors are collected under a base with a whole exponent, from which they are rebuilt. -/
theorem asBase_spec {f : Expr} (h : Canonical f) (hr : f.rat? = none) (hp : f.isProduct = false) :
    Base (asBase f).1 ∧ (∃ n : Int, (asBase f).2 = rat n) ∧
      powerStep power product (asBase f).1 (asBase f).2 = f := by
  have hone (hnot : ∀ b x, f ≠ pow b x) (hself : asBase f = (f, one)) :
      Base (asBase f).1 ∧ (∃ n : Int, (asBase f).2 = rat n) ∧
        powerStep power product (asBase f).1 (asBase f).2 = f := by
    rw [hself]
    refine ⟨⟨h, hp, hnot, isZero_of_rat?_eq_none hr, isOne_of_rat?_eq_none hr⟩, ⟨1, ?_⟩, ?_⟩
    · simp [one]
    · exact powerStep_one power product h
  cases h with
  | rat q => cases hr
  | @power b n hb hbase h0 h1 hlarge =>
    refine ⟨⟨hb, hbase⟩, ⟨n, rfl⟩, ?_⟩
    cases hrb : b.rat? with
    | some q =>
      obtain rfl := eq_rat_of_rat? hrb
      have hq0 : q ≠ 0 := by simpa [isZero] using hbase.notZero
      have hq1 : q ≠ 1 := by simpa [isOne] using hbase.notOne
      have hstep := powerStep_rat power product hq1 h0 h1
      rw [rationalPower, if_neg hq0, if_pos (Rat.den_intCast n), Rat.num_intCast, hlarge q rfl] at hstep
      exact hstep
    | none =>
      have hstep := powerStep_whole power product hb hrb h0 h1
      rw [Base.powerOfBase power product ⟨hb, hbase⟩] at hstep
      exact hstep
  | product | scaled => cases hp
  | var | pi | e | call | sum => exact hone (by simp) rfl

theorem insertBase_of_factor {f : Expr} (h : Canonical f) (hr : f.rat? = none)
    (g : FactorGroups (Expr × Expr)) :
    g.insertBase f = { g with others := collectBase (asBase f).1 (asBase f).2 g.others } := by
  cases h with
  | rat q => cases hr
  | _ => rfl

/-- Collected bases have whole exponents, and no two of them are the same. -/
structure Collected (gs : List (Expr × Expr)) : Prop where
  base : ∀ g ∈ gs, Base g.1
  exponent : ∀ g ∈ gs, ∃ n : Int, g.2 = rat n
  nodup : (gs.map Prod.fst).Nodup

theorem mem_collectBase {b x : Expr} {gs : List (Expr × Expr)} {g : Expr × Expr}
    (h : g ∈ collectBase b x gs) : g.1 = b ∨ ∃ g' ∈ gs, g'.1 = g.1 := by
  induction gs with
  | nil =>
    rw [collectBase, List.mem_singleton] at h
    exact .inl (by rw [h])
  | cons g' gs ih =>
    obtain ⟨c, y⟩ := g'
    rw [collectBase] at h
    split at h
    · rename_i hc
      rcases List.mem_cons.1 h with rfl | h
      · exact .inl hc
      · exact .inr ⟨g, List.mem_cons_of_mem _ h, rfl⟩
    · rcases List.mem_cons.1 h with rfl | h
      · exact .inr ⟨(c, y), List.mem_cons_self, rfl⟩
      · rcases ih h with hb | ⟨g', hg', heq⟩
        · exact .inl hb
        · exact .inr ⟨g', List.mem_cons_of_mem _ hg', heq⟩

theorem collectBase_of_notMem {b x : Expr} {gs : List (Expr × Expr)} (h : b ∉ gs.map Prod.fst) :
    collectBase b x gs = gs ++ [(b, x)] := by
  induction gs with
  | nil => rfl
  | cons g gs ih =>
    obtain ⟨c, y⟩ := g
    simp only [List.map_cons, List.mem_cons, not_or] at h
    rw [collectBase, if_neg (Ne.symm h.1), ih h.2]
    rfl

theorem nodup_collectBase (b x : Expr) {gs : List (Expr × Expr)} (h : (gs.map Prod.fst).Nodup) :
    ((collectBase b x gs).map Prod.fst).Nodup := by
  induction gs with
  | nil => simp [collectBase]
  | cons g gs ih =>
    obtain ⟨c, y⟩ := g
    rw [List.map_cons, List.nodup_cons] at h
    rw [collectBase]
    split
    · exact List.nodup_cons.2 h
    · rename_i hne
      refine List.nodup_cons.2 ⟨fun hmem => ?_, ih h.2⟩
      obtain ⟨g, hg, hgc⟩ := List.mem_map.1 hmem
      rcases mem_collectBase hg with heq | ⟨g', hg', heq⟩
      · exact hne (hgc.symm.trans heq)
      · exact h.1 (List.mem_map.2 ⟨g', hg', heq.trans hgc⟩)

/-- No base is collected twice. -/
theorem nodup_collectBases (fs : List Expr) : ((collectBases fs).others.map Prod.fst).Nodup := by
  suffices hfold : ∀ (fs : List Expr) (gs : List (Expr × Expr)), (gs.map Prod.fst).Nodup →
      ((fs.foldl (fun gs f => collectBase (asBase f).1 (asBase f).2 gs) gs).map Prod.fst).Nodup by
    rw [collectBases_parts]
    exact hfold _ _ .nil
  intro fs
  induction fs with
  | nil => exact fun gs h => h
  | cons f fs ih => exact fun gs h => ih _ (nodup_collectBase _ _ h)

theorem Collected.collectBase {gs : List (Expr × Expr)} (h : Collected gs) {b : Expr} (hb : Base b)
    (n : Int) : Collected (collectBase b (rat n) gs) := by
  refine ⟨fun g hg => ?_, ?_, nodup_collectBase _ _ h.nodup⟩
  · rcases mem_collectBase hg with heq | ⟨g', hg', heq⟩
    · exact heq ▸ hb
    · exact heq ▸ h.base g' hg'
  · refine collectBase_all (P := fun _ y => ∃ n : Int, y = rat n) (fun hx hy => ?_) ⟨n, rfl⟩ h.exponent
    obtain ⟨m, rfl⟩ := hx
    obtain ⟨k, rfl⟩ := hy
    exact ⟨m + k, by rw [sum_rat_rat, Int.cast_add]⟩

theorem collectBases_canonical {fs : List Expr} (h : ∀ f ∈ fs, Canonical f ∧ f.isProduct = false) :
    (collectBases fs).hasInfinity = false ∧ Collected (collectBases fs).others := by
  suffices hfold : ∀ (fs : List Expr) (g : FactorGroups (Expr × Expr)),
      (∀ f ∈ fs, Canonical f ∧ f.isProduct = false) → g.hasInfinity = false → Collected g.others →
      (fs.foldl FactorGroups.insertBase g).hasInfinity = false ∧
        Collected (fs.foldl FactorGroups.insertBase g).others from
    hfold fs _ h rfl ⟨by simp, by simp, by simp⟩
  intro fs
  induction fs with
  | nil => exact fun g _ hinf hg => ⟨hinf, hg⟩
  | cons f fs ih =>
    intro g hfs hinf hg
    obtain ⟨⟨hf, hp⟩, hfs⟩ := List.forall_mem_cons.1 hfs
    rw [List.foldl_cons]
    cases hr : f.rat? with
    | some q =>
      rw [eq_rat_of_rat? hr]
      exact ih _ hfs hinf hg
    | none =>
      obtain ⟨hb, ⟨n, hn⟩, -⟩ := asBase_spec pow mul hf hr hp
      rw [insertBase_of_factor hf hr]
      exact ih _ hfs hinf (hn ▸ hg.collectBase hb n)

/-! ## Rebuilding -/

/-- Rationals among the rebuilt powers join the coefficient. -/
theorem collectRebuilt_eq (c : Rat) {rs : List Expr} (h : ∀ x ∈ rs, x ≠ infinity) :
    collectRebuilt c false rs =
      ⟨c * (rs.filterMap rat?).prod, false, rs.filter fun x => x.rat?.isNone⟩ := by
  have hplain : plainFactors rs = rs.filter fun x => x.rat?.isNone :=
    List.filter_congr fun x hx => by simp [h x hx]
  have hinf : infinity ∉ rs := fun hmem => h _ hmem rfl
  rw [collectRebuilt_parts, hplain]
  simp [hinf]

/-- Rebuilt factors with different bases. -/
theorem rebuilt_filter {gs : List (Expr × Expr)} {shown : Expr × Expr → Expr}
    (h : ∀ g ∈ gs, Rebuilt g.1 (shown g)) (hnodup : (gs.map Prod.fst).Nodup) :
    (((gs.map shown).filter fun x => x.rat?.isNone).map factorBase).Nodup := by
  refine hnodup.sublist ?_
  clear hnodup
  induction gs with
  | nil => exact .slnil
  | cons g gs ih =>
    obtain ⟨hg, hgs⟩ := List.forall_mem_cons.1 h
    rw [List.map_cons, List.filter_cons]
    split
    · rename_i hr
      rw [List.map_cons, List.map_cons, hg.base (by simpa using hr)]
      exact (ih hgs).cons_cons _
    · exact (ih hgs).cons _

/-! ## One coefficient and a row of factors -/

theorem flattenFactors_of_notProduct {fs : List Expr} (h : ∀ f ∈ fs, f.isProduct = false) :
    flattenFactors fs = fs := by
  fun_induction flattenFactors fs with
  | case1 => rfl
  | case2 ys xs => exact absurd (h (mul ys) List.mem_cons_self) (by simp [isProduct])
  | case3 x xs _ ih => rw [ih (List.forall_mem_cons.1 h).2]

/-- A row of factors that a product collects and rebuilds as they are. -/
structure KeptRow (fs : List Expr) : Prop extends FactorRow fs where
  ne_undefined : ∀ f ∈ fs, f ≠ undefined
  ne_infinity : ∀ f ∈ fs, f ≠ infinity
  rebuilt : ∀ f ∈ fs, ∀ (power : Expr → Expr → Expr) (product : List Expr → Expr),
    powerStep power product (asBase f).1 (asBase f).2 = f

theorem FactorRow.kept {fs : List Expr} (h : FactorRow fs) (hfs : ∀ f ∈ fs, Canonical f) : KeptRow fs where
  toFactorRow := h
  ne_undefined f hf := (hfs f hf).ne_undefined
  ne_infinity f hf := (hfs f hf).ne_infinity
  rebuilt f hf _ _ := (asBase_spec _ _ (hfs f hf) (h.notRat f hf) (h.notProduct f hf)).2.2

theorem any_undefined_of_canonical {xs : List Expr} (h : ∀ x ∈ xs, Canonical x) :
    xs.any (· = undefined) = false :=
  any_undefined_eq_false_of_ne fun x hx => (h x hx).ne_undefined

theorem any_isProduct_eq_false {xs : List Expr} (h : ∀ x ∈ xs, x.isProduct = false) :
    xs.any isProduct = false := by
  simpa only [List.any_eq_false, Bool.not_eq_true] using h

namespace KeptRow

variable {fs : List Expr} (h : KeptRow fs)

include h

/-- Rationals and a row of factors are collected as they are. -/
theorem collectBases_eq (cs : List Rat) : collectBases (cs.map rat ++ fs) = ⟨cs.prod, false, fs.map asBase⟩ := by
  have hplain : plainFactors (cs.map rat ++ fs) = fs := by
    have hrats : plainFactors (cs.map rat) = [] := by simp [plainFactors, List.filter_eq_nil_iff, rat?]
    have hfs : plainFactors fs = fs :=
      List.filter_eq_self.2 fun f hf => by simp [h.notRat f hf, h.ne_infinity f hf]
    rw [plainFactors, List.filter_append, ← plainFactors, ← plainFactors, hrats, hfs, List.nil_append]
  have hcoeff : (cs.map rat ++ fs).filterMap rat? = cs := by
    rw [List.filterMap_append, List.filterMap_eq_nil_iff.2 h.notRat, List.append_nil, List.filterMap_map]
    exact List.filterMap_some
  have hnone : infinity ∉ cs.map rat ++ fs := by
    intro hmem
    rcases List.mem_append.1 hmem with hmem | hmem
    · simp at hmem
    · exact h.ne_infinity _ hmem rfl
  -- bases that are new are collected as they come
  have hnew : ∀ (fs : List Expr) (gs : List (Expr × Expr)), (gs.map Prod.fst ++ fs.map factorBase).Nodup →
      fs.foldl (fun gs f => collectBase (asBase f).1 (asBase f).2 gs) gs = gs ++ fs.map asBase := by
    intro fs
    induction fs with
    | nil => simp
    | cons f fs ih =>
      intro gs hnodup
      have hf : (asBase f).1 ∉ gs.map Prod.fst := by
        rw [List.map_cons, List.nodup_append] at hnodup
        rw [asBase_fst]
        exact fun hmem => hnodup.2.2 _ hmem _ List.mem_cons_self rfl
      rw [List.foldl_cons, collectBase_of_notMem hf, ih]
      · simp
      · simpa [asBase_fst] using hnodup
  rw [collectBases_parts, hcoeff, hplain, hnew fs [] (by simpa using h.bases)]
  simp [hnone]

theorem collectRebuilt_eq (c : Rat) : collectRebuilt c false fs = ⟨c, false, fs⟩ := by
  rw [Expr.collectRebuilt_eq c h.ne_infinity, List.filterMap_eq_nil_iff.2 h.notRat,
    List.filter_eq_self.2 fun f hf => by simp [h.notRat f hf]]
  simp

/-- The factors are rebuilt as they are. -/
theorem map_powerWithin (k : Nat) : ((fs.map asBase).map fun g => powerWithin (k + 1) g.1 g.2) = fs := by
  rw [List.map_map]
  calc fs.map _ = fs.map id := List.map_congr_left fun f hf => h.rebuilt f hf _ _
    _ = fs := List.map_id fs

/-- Rationals and a row of factors are multiplied out. -/
theorem productWithin_eq (k : Nat) {xs : List Expr} {cs : List Rat} (hflat : flattenFactors xs = cs.map rat ++ fs) :
    productWithin (k + 2) xs = multiplyOut (productWithin (k + 1)) ⟨cs.prod, false, fs⟩ := by
  have hall : ∀ x ∈ cs.map rat ++ fs, x ≠ undefined := by
    refine List.forall_mem_append.2 ⟨fun x hx => ?_, h.ne_undefined⟩
    obtain ⟨c, -, rfl⟩ := List.mem_map.1 hx
    simp
  rw [productWithin, productStep, hflat, any_undefined_eq_false_of_ne hall, if_neg Bool.false_ne_true,
    h.collectBases_eq]
  dsimp only
  rw [h.map_powerWithin, any_undefined_eq_false_of_ne h.ne_undefined, if_neg Bool.false_ne_true,
    h.collectRebuilt_eq]

/-- Rationals and a row of factors multiply to the factors with a coefficient in front. -/
theorem productWithin_eq_times (k : Nat) {xs : List Expr} {cs : List Rat}
    (hflat : flattenFactors xs = cs.map rat ++ fs) (hc : cs.prod ≠ 0) (hlone : cs.prod = 1 ∨ ∀ ts, fs ≠ [add ts]) :
    productWithin (k + 2) xs = times cs.prod fs := by
  rw [h.productWithin_eq k hflat, multiplyOut, if_neg hc, any_isProduct_eq_false h.notProduct,
    if_neg Bool.false_ne_true, if_neg Bool.false_ne_true]
  split
  · rename_i ts hts
    obtain rfl : fs = [add ts] := hts
    have hone : cs.prod = 1 := hlone.resolve_right fun h => h ts rfl
    rw [if_pos hone, hone, times_one_singleton]
  · rw [assemble_eq_times, sortFactors_of_sorted h.sorted]

/-- The product of the factors is the product that they stand in. -/
theorem product_eq (hlen : 2 ≤ fs.length) : Expr.product fs = mul fs := by
  obtain ⟨k, hk⟩ := roundsFor_eq (sizeAll fs)
  have hflat : flattenFactors fs = ([] : List Rat).map rat ++ fs := flattenFactors_of_notProduct h.notProduct
  rw [Expr.product, hk, h.productWithin_eq_times (k + 2) hflat (by simp) (.inl rfl)]
  exact times_one_of_length hlen

/-- The product of a coefficient and the factors is the product that they stand in. -/
theorem product_scaled_eq {c : Rat} (hc0 : c ≠ 0) (hc1 : c ≠ 1) (hne : fs ≠ []) (hlone : ∀ ts, fs ≠ [add ts]) :
    Expr.product (rat c :: fs) = mul (rat c :: fs) := by
  obtain ⟨k, hk⟩ := roundsFor_eq (sizeAll (rat c :: fs))
  have hflat : flattenFactors (rat c :: fs) = [c].map rat ++ fs := by
    rw [flattenFactors, flattenFactors_of_notProduct h.notProduct]
    · rfl
    · simp
  rw [Expr.product, hk, h.productWithin_eq_times (k + 2) hflat (by simpa using hc0) (.inr hlone),
    List.prod_singleton, times_of_ne_one hc1 hne]

end KeptRow

/-- Rationals and a row of canonical factors are collected as they are. -/
theorem productWithin_collected (k : Nat) {xs fs : List Expr} {cs : List Rat}
    (hflat : flattenFactors xs = cs.map rat ++ fs) (hfs : ∀ f ∈ fs, Canonical f) (hrow : FactorRow fs) :
    productWithin (k + 2) xs = multiplyOut (productWithin (k + 1)) ⟨cs.prod, false, fs⟩ :=
  (hrow.kept hfs).productWithin_eq k hflat

/-- Rationals and a row of canonical factors multiply to the factors with a coefficient in front. -/
theorem productWithin_row (k : Nat) {xs fs : List Expr} {cs : List Rat}
    (hflat : flattenFactors xs = cs.map rat ++ fs) (hfs : ∀ f ∈ fs, Canonical f)
    (hrow : FactorRow fs) (hc : cs.prod ≠ 0) (hlone : cs.prod = 1 ∨ ∀ ts, fs ≠ [add ts]) :
    productWithin (k + 2) xs = times cs.prod fs :=
  (hrow.kept hfs).productWithin_eq_times k hflat hc hlone

/-- A zero among the rationals makes the product zero. -/
theorem productWithin_row_zero (k : Nat) {xs fs : List Expr} {cs : List Rat}
    (hflat : flattenFactors xs = cs.map rat ++ fs) (hfs : ∀ f ∈ fs, Canonical f)
    (hrow : FactorRow fs) (hc : cs.prod = 0) : productWithin (k + 2) xs = zero := by
  rw [productWithin_collected k hflat hfs hrow, multiplyOut, if_pos hc, if_neg Bool.false_ne_true]

/-! ## Products -/

theorem flattenFactors_canonical {fs : List Expr} (h : ∀ f ∈ fs, Canonical f) :
    ∀ f ∈ flattenFactors fs, Canonical f ∧ f.isProduct = false := by
  refine flattenFactors_all (fun hy => ?_) h
  cases hy with
  | product hfs => exact hfs
  | scaled hfs => exact List.forall_mem_cons.2 ⟨.rat _, hfs⟩

theorem flattenFactors_times (c d : Rat) {fs : List Expr} (h : Monomial fs) :
    ∃ cs : List Rat, flattenFactors [rat c, times d fs] = cs.map rat ++ fs ∧ cs.prod = c * d := by
  have hflat := flattenFactors_of_notProduct h.row.notProduct
  by_cases hd : d = 1
  · subst hd
    match fs with
    | [] => exact ⟨[c, 1], by simp [flattenFactors], by simp⟩
    | [f] =>
      refine ⟨[c], ?_, by simp⟩
      rw [times_one_singleton, flattenFactors_of_notProduct]
      · rfl
      · simpa [isProduct] using h.row.notProduct f (by simp)
    | f :: g :: fs =>
      refine ⟨[c], ?_, by simp⟩
      rw [times_one_cons_cons]
      simpa [flattenFactors] using hflat
  · refine ⟨[c, d], ?_, by simp⟩
    by_cases hne : fs = []
    · simp [hne, flattenFactors]
    · simp [times_of_ne_one hd hne, flattenFactors, hflat]

/-- A coefficient before a term of a canonical sum. -/
theorem productWithin_coeff (k : Nat) {c : Rat} (hc : c ≠ 0) {t : Expr} (ht : Canonical t)
    (hs : t.isSum = false) (hz : t.isZero = false) : Canonical (productWithin (k + 2) [rat c, t]) := by
  obtain ⟨d, fs, rfl, hfs, hd⟩ := ht.monomial hs
  obtain ⟨cs, hflat, hprod⟩ := flattenFactors_times c d hfs
  have hne : cs.prod ≠ 0 := by
    rw [hprod]
    exact mul_ne_zero hc (hd hz)
  rw [productWithin_row k hflat hfs.canonical hfs.row hne (.inr hfs.notLone)]
  exact hfs.canonical_times hne

/-- Sorted factors with different bases are a row. -/
theorem factorRow_sortFactors {fs : List Expr} (hr : ∀ f ∈ fs, f.rat? = none)
    (hp : ∀ f ∈ fs, f.isProduct = false) (hb : (fs.map factorBase).Nodup) :
    FactorRow (sortFactors fs) := by
  have hperm : (sortFactors fs).Perm fs := List.mergeSort_perm _ _
  exact ⟨fun f hf => hr f (hperm.mem_iff.1 hf), fun f hf => hp f (hperm.mem_iff.1 hf),
    (hperm.map _).nodup_iff.2 hb, sortFactors_sorted fs⟩

/-- What collected factors multiply to, if no factor is a product and no two have the same base. -/
theorem multiplyOut_canonical (k : Nat) (c : Rat) {fs : List Expr}
    (hfs : ∀ f ∈ fs, Canonical f) (hr : ∀ f ∈ fs, f.rat? = none) (hp : ∀ f ∈ fs, f.isProduct = false)
    (hb : (fs.map factorBase).Nodup) :
    Canonical (multiplyOut (productWithin (k + 2)) ⟨c, false, fs⟩) := by
  rw [multiplyOut, any_isProduct_eq_false hp]
  by_cases hc : c = 0
  · rw [if_pos hc, if_neg Bool.false_ne_true]
    exact .rat 0
  rw [if_neg hc, if_neg Bool.false_ne_true, if_neg Bool.false_ne_true]
  split
  · rename_i ts heq
    obtain rfl : fs = [add ts] := heq
    have hts := hfs (add ts) List.mem_cons_self
    split
    · exact hts
    · -- the coefficient spreads over the terms
      cases hts with
      | sum hts hrow hlen =>
        refine sum_canonical fun x hx => ?_
        obtain ⟨t, ht, rfl⟩ := List.mem_map.1 hx
        exact productWithin_coeff k hc (hts t ht) (hrow.notSum t ht) (hrow.notZero t ht)
  · rename_i hnot
    have hperm : (sortFactors fs).Perm fs := List.mergeSort_perm _ _
    rw [assemble_eq_times]
    refine canonical_times (fun f hf => hfs f (hperm.mem_iff.1 hf)) (factorRow_sortFactors hr hp hb) hc
      (.inr fun ts hts => ?_)
    rw [hts] at hperm
    exact hnot ts (List.perm_singleton.1 hperm.symm)

/-- The product of canonical expressions is canonical. -/
theorem productWithin_canonical (k : Nat) {xs : List Expr} (h : ∀ x ∈ xs, Canonical x) :
    Canonical (productWithin (k + 3) xs) := by
  have hflat := flattenFactors_canonical h
  obtain ⟨hinf, hg⟩ := collectBases_canonical hflat
  have hrebuilt : ∀ g ∈ (collectBases (flattenFactors xs)).others,
      Rebuilt g.1 (powerWithin (k + 2) g.1 g.2) := by
    intro g hmem
    obtain ⟨n, hn⟩ := hg.exponent g hmem
    rw [hn]
    exact powerStep_base _ _ (hg.base g hmem) n
  rw [productWithin, productStep, any_undefined_of_canonical fun f hf => (hflat f hf).1,
    if_neg Bool.false_ne_true]
  dsimp only
  rw [hinf]
  have hcanon : ∀ x ∈ (collectBases (flattenFactors xs)).others.map fun g =>
      powerWithin (k + 2) g.1 g.2, Canonical x ∧ x.isProduct = false := by
    intro x hx
    obtain ⟨g, hmem, rfl⟩ := List.mem_map.1 hx
    exact ⟨(hrebuilt g hmem).canonical, (hrebuilt g hmem).notProduct⟩
  have hbases := rebuilt_filter hrebuilt hg.nodup
  rw [any_undefined_of_canonical fun x hx => (hcanon x hx).1, if_neg Bool.false_ne_true,
    collectRebuilt_eq _ fun x hx => (hcanon x hx).1.ne_infinity]
  refine multiplyOut_canonical k _ (fun f hf => ?_) (fun f hf => ?_) (fun f hf => ?_) hbases
  · exact (hcanon f (List.mem_filter.1 hf).1).1
  · simpa using (List.mem_filter.1 hf).2
  · exact (hcanon f (List.mem_filter.1 hf).1).2

/-! ## Powers -/

theorem isInteger_intCast (n : Int) : (rat (n : Rat)).isInteger = true := by
  simp [isInteger, Rational.isInt]

theorem isZero_rat {q : Rat} : (rat q).isZero = false ↔ q ≠ 0 := by
  simp [isZero]

/-- A whole power of a rational is canonical, unless it is a negative power of zero. -/
theorem powerStep_rat_canonical {q : Rat} {n : Int} (h : q ≠ 0 ∨ 0 ≤ n) :
    Canonical (powerStep power product (rat q) (rat n)) := by
  by_cases h0 : n = 0
  · rw [h0, Int.cast_zero, powerStep_zero power product (.rat q)]
    exact .rat 1
  by_cases h1 : n = 1
  · rw [h1, Int.cast_one, powerStep_one power product (.rat q)]
    exact .rat q
  by_cases hq1 : q = 1
  · have hone : powerStep power product (rat q) (rat n) = rat 1 := by
      unfold powerStep
      rw [if_neg (by simp), if_neg (by simpa [isZero] using h0), if_neg (by simpa [isOne] using h1),
        if_pos (by simp [isOne, hq1]), if_pos (by simp [isFinite, exist])]
      rfl
    exact hone ▸ .rat 1
  rw [powerStep_rat power product hq1 h0 h1]
  by_cases hq : q = 0
  · have hn : 0 < n := lt_of_le_of_ne (h.resolve_left (not_not_intro hq)) (Ne.symm h0)
    rw [rationalPower, if_pos hq, if_pos (by exact_mod_cast hn)]
    exact .rat 0
  · exact (rationalPower_rebuilt product hq hq1 h0 h1).canonical

/-- A whole power of a factor. -/
theorem powerWithin_factor (k : Nat) {f : Expr} (hf : Canonical f) (hp : f.isProduct = false) {n : Int}
    (h : f.isZero = false ∨ 0 ≤ n) : Canonical (powerWithin (k + 2) f (rat n)) := by
  cases hr : f.rat? with
  | some q =>
    obtain rfl := eq_rat_of_rat? hr
    exact powerStep_rat_canonical _ _ (h.imp_left isZero_rat.1)
  | none =>
    by_cases h0 : n = 0
    · rw [h0, Int.cast_zero, powerWithin, powerStep_zero _ _ hf]
      exact .rat 1
    by_cases h1 : n = 1
    · rw [h1, Int.cast_one, powerWithin, powerStep_one _ _ hf]
      exact hf
    by_cases hpow : ∃ b x, f = pow b x
    · obtain ⟨b, x, rfl⟩ := hpow
      rw [powerWithin, powerStep_whole _ _ hf hr h0 h1, powerOfBase, isInteger_intCast, Bool.true_or,
        if_pos rfl]
      cases hf with
      | @power _ m hb hbase =>
        -- the exponents multiply
        rw [productWithin_rat_rat, ← Int.cast_mul]
        exact (powerStep_base _ _ ⟨hb, hbase⟩ (m * n)).canonical
    · have hbase : Base f := ⟨hf, hp, fun b x heq => hpow ⟨b, x, heq⟩, isZero_of_rat?_eq_none hr,
        isOne_of_rat?_eq_none hr⟩
      exact (powerStep_base _ _ hbase n).canonical

/-- A whole power of a canonical expression is canonical, unless it is a negative power of zero. -/
theorem powerWithin_canonical (k : Nat) {b : Expr} (hb : Canonical b) {n : Int}
    (h : b.isZero = false ∨ 0 ≤ n) : Canonical (powerWithin (k + 4) b (rat n)) := by
  cases hp : b.isProduct with
  | false => exact powerWithin_factor (k + 2) hb hp h
  | true =>
    by_cases h0 : n = 0
    · rw [h0, Int.cast_zero, powerWithin, powerStep_zero _ _ hb]
      exact .rat 1
    by_cases h1 : n = 1
    · rw [h1, Int.cast_one, powerWithin, powerStep_one _ _ hb]
      exact hb
    have hfactors : ∀ fs, b = mul fs →
        ∀ f ∈ fs, Canonical f ∧ f.isProduct = false ∧ f.isZero = false := by
      rintro fs rfl
      cases hb with
      | product hfs hrow =>
        exact fun f hf => ⟨hfs f hf, hrow.notProduct f hf, isZero_of_rat?_eq_none (hrow.notRat f hf)⟩
      | scaled hfs hrow hc0 =>
        refine List.forall_mem_cons.2 ⟨⟨.rat _, rfl, isZero_rat.2 hc0⟩, fun f hf => ?_⟩
        exact ⟨hfs f hf, hrow.notProduct f hf, isZero_of_rat?_eq_none (hrow.notRat f hf)⟩
    cases b with
    | mul fs =>
      have hstep : powerWithin (k + 4) (mul fs) (rat n) =
          productWithin (k + 3) (fs.map fun f => powerWithin (k + 3) f (rat n)) := by
        rw [powerWithin, powerStep_whole _ _ hb rfl h0 h1]
        unfold powerOfBase
        rw [isInteger_intCast]
        rfl
      rw [hstep]
      refine productWithin_canonical k fun x hx => ?_
      obtain ⟨f, hf, rfl⟩ := List.mem_map.1 hx
      obtain ⟨hcanon, hprod, hzero⟩ := hfactors fs rfl f hf
      exact powerWithin_factor (k + 1) hcanon hprod (.inl hzero)
    | _ => cases hp

/-- A negative power of zero is undefined. -/
theorem powerWithin_zero (k : Nat) {n : Int} (hn : n < 0) :
    powerWithin (k + 1) (rat 0) (rat n) = undefined := by
  have hle : ¬ (0 : Rat) < n := by
    rw [not_lt]
    exact_mod_cast hn.le
  rw [powerWithin, powerStep_rat _ _ zero_ne_one (by omega) (by omega), rationalPower, if_pos rfl,
    if_neg hle]

end Step

/-! ## All rounds -/

theorem product_canonical {xs : List Expr} (h : ∀ x ∈ xs, Canonical x) : Canonical (product xs) := by
  obtain ⟨k, hk⟩ := roundsFor_eq (sizeAll xs)
  rw [product, hk]
  exact productWithin_canonical (k + 1) h

/-- The product of the factors of a canonical product is that product. -/
theorem product_factors {fs : List Expr} (hfs : ∀ f ∈ fs, Canonical f) (hrow : FactorRow fs)
    (hlen : 2 ≤ fs.length) : product fs = mul fs :=
  (hrow.kept hfs).product_eq hlen

/-- The product of the coefficient and the factors of a canonical product is that product. -/
theorem product_scaled {c : Rat} {fs : List Expr} (hfs : ∀ f ∈ fs, Canonical f) (hrow : FactorRow fs)
    (hc0 : c ≠ 0) (hc1 : c ≠ 1) (hne : fs ≠ []) (hlone : ∀ ts, fs ≠ [add ts]) :
    product (rat c :: fs) = mul (rat c :: fs) :=
  (hrow.kept hfs).product_scaled_eq hc0 hc1 hne hlone

/-- A whole power is canonical or undefined. -/
theorem power_canonical {b : Expr} (hb : Canonical b) (n : Int) :
    power b (rat n) = undefined ∨ Canonical (power b (rat n)) := by
  obtain ⟨k, hk⟩ := roundsFor_eq (b.size + (rat (n : Rat)).size)
  rw [power, hk]
  by_cases h : b.isZero = false ∨ 0 ≤ n
  · exact .inr (powerWithin_canonical k hb h)
  · left
    simp only [not_or, not_le, Bool.not_eq_false] at h
    obtain rfl : b = rat 0 := by
      cases b with
      | rat q => simpa [isZero] using h.1
      | _ => cases h.1
    exact powerWithin_zero (k + 3) h.2

/-- A canonical power is the power of its base. -/
theorem power_base {b : Expr} {n : Int} (h : Canonical (pow b (rat n))) :
    power b (rat n) = pow b (rat n) := by
  obtain ⟨k, hk⟩ := roundsFor_eq (b.size + (rat (n : Rat)).size)
  rw [power, hk]
  exact (asBase_spec _ _ h rfl rfl).2.2

end SymbolicSolver.Expr
