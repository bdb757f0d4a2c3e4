import Mathlib.Data.List.Induction
import SymbolicSolver.Proofs.Canonical.FormProduct

/-!
# Products of powers

A product adds up the exponents of each base and puts the rebuilt powers behind a coefficient. What it is, is said here
for factors of any base and with any rational exponents, as long as every rebuilt power stands as a factor of its own.
Such a product is no rational, and neither is its sum with one.
-/

namespace SymbolicSolver.Expr

/-! ## Atoms -/

/-- A factor that neither counts as a coefficient nor is taken apart. -/
structure Atom (x : Expr) : Prop where
  notRat : x.rat? = none
  notProduct : x.isProduct = false
  notSum : x.isSum = false
  notInfinity : x ≠ infinity
  notUndefined : x ≠ undefined

theorem atom_pow (b x : Expr) : Atom (pow b x) := ⟨rfl, rfl, rfl, by simp, by simp⟩

theorem atom_i : Atom i := ⟨rfl, rfl, rfl, by simp, by simp⟩

/-- The elements of a list that are no rationals. -/
def nonRats (xs : List Expr) : List Expr := xs.filter fun x => x.rat?.isNone

theorem mem_nonRats {x : Expr} {xs : List Expr} : x ∈ nonRats xs ↔ x ∈ xs ∧ x.rat? = none := by
  simp [nonRats]

/-- The flat factors are rationals with the given product and the given other factors. -/
structure Flat (xs : List Expr) (c : Rat) (fs : List Expr) : Prop where
  coeff : ((flattenFactors xs).filterMap rat?).prod = c
  rest : nonRats (flattenFactors xs) = fs

theorem flattenFactors_append (xs ys : List Expr) :
    flattenFactors (xs ++ ys) = flattenFactors xs ++ flattenFactors ys := by
  fun_induction flattenFactors xs with
  | case1 => rfl
  | case2 us xs ihu ihx => simp only [List.cons_append, flattenFactors, ihx, List.append_assoc]
  | case3 x xs hx ih =>
    rw [List.cons_append, flattenFactors.eq_3 _ _ hx, ih, List.cons_append]

namespace Flat

theorem append {xs ys fs gs : List Expr} {c d : Rat} (hx : Flat xs c fs) (hy : Flat ys d gs) :
    Flat (xs ++ ys) (c * d) (fs ++ gs) := by
  constructor
  · rw [flattenFactors_append, List.filterMap_append, List.prod_append, hx.coeff, hy.coeff]
  · rw [flattenFactors_append, nonRats, List.filter_append]
    exact congrArg₂ _ hx.rest hy.rest

theorem rat (c : Rat) : Flat [rat c] c [] := ⟨by simp [flattenFactors, rat?], by simp [flattenFactors, nonRats, rat?]⟩

theorem atoms {fs : List Expr} (h : ∀ f ∈ fs, Atom f) : Flat fs 1 fs := by
  have hflat := flattenFactors_of_notProduct fun f hf => (h f hf).notProduct
  constructor
  · rw [hflat, List.filterMap_eq_nil_iff.2 fun f hf => (h f hf).notRat, List.prod_nil]
  · rw [hflat]
    exact List.filter_eq_self.2 fun f hf => by simp [(h f hf).notRat]

theorem mul {xs : List Expr} {c : Rat} {fs : List Expr} (h : Flat xs c fs) : Flat [.mul xs] c fs := by
  have hflat : flattenFactors [.mul xs] = flattenFactors xs := by simp [flattenFactors]
  exact ⟨hflat ▸ h.coeff, hflat ▸ h.rest⟩

/-- Coefficient and factors of a product are found again. -/
theorem times (c : Rat) {fs : List Expr} (h : ∀ f ∈ fs, Atom f) : Flat [times c fs] c fs := by
  by_cases hfs : fs = []
  · rw [hfs, times_nil]
    exact .rat c
  by_cases hc : c = 1
  · subst hc
    match fs with
    | [f] => simpa using Flat.atoms h
    | f :: g :: fs =>
      rw [times_one_cons_cons]
      exact (Flat.atoms h).mul
  · rw [times_of_ne_one hc hfs]
    simpa using ((Flat.rat c).append (.atoms h)).mul

end Flat

/-! ## Exponents -/

/-- The exponents of a base among factors, added up. -/
def exponent (b : Expr) (fs : List Expr) : Rat :=
  ((fs.filter fun f => (asBase f).1 = b).map fun f => (asBase f).2.rat?.getD 0).sum

theorem exponent_perm {fs gs : List Expr} (h : fs.Perm gs) (b : Expr) : exponent b fs = exponent b gs :=
  ((h.filter _).map _).sum_eq

@[simp] theorem exponent_nil (b : Expr) : exponent b [] = 0 := rfl

theorem exponent_cons (b f : Expr) (fs : List Expr) :
    exponent b (f :: fs) = (if (asBase f).1 = b then (asBase f).2.rat?.getD 0 else 0) + exponent b fs := by
  by_cases h : (asBase f).1 = b <;> simp [exponent, h]

theorem exponent_append (b : Expr) (fs gs : List Expr) :
    exponent b (fs ++ gs) = exponent b fs + exponent b gs := by
  simp [exponent]

theorem exponent_eq_zero {b : Expr} {fs : List Expr} (h : ∀ f ∈ fs, (asBase f).1 ≠ b) : exponent b fs = 0 := by
  rw [exponent, List.filter_eq_nil_iff.2 (by simpa using h), List.map_nil, List.sum_nil]

/-- Where no two factors have one base, the exponents stay as they are. -/
theorem exponent_of_nodup {f : Expr} {fs : List Expr} (hf : f ∈ fs) (h : (fs.map fun f => (asBase f).1).Nodup) :
    exponent (asBase f).1 fs = (asBase f).2.rat?.getD 0 := by
  induction fs with
  | nil => simp at hf
  | cons g fs ih =>
    rw [List.map_cons, List.nodup_cons] at h
    have hnot : ∀ x ∈ fs, (asBase x).1 ≠ (asBase g).1 := fun x hx he =>
      h.1 (List.mem_map.2 ⟨x, hx, he⟩)
    rw [exponent_cons]
    rcases List.mem_cons.1 hf with rfl | hf
    · rw [if_pos rfl, exponent_eq_zero hnot, add_zero]
    · rw [if_neg (hnot f hf).symm, zero_add, ih hf h.2]

/-- One more power adds its exponent to that of its base, or brings the base in. -/
theorem collectBase_exponents (b : Expr) (e : Rat) {bs : List Expr} (hbs : bs.Nodup) {E : Expr → Rat}
    (hE : b ∉ bs → E b = 0) :
    collectBase b (rat e) (bs.map fun c => (c, rat (E c))) =
      (if b ∈ bs then bs else bs ++ [b]).map fun c => (c, rat (E c + if b = c then e else 0)) := by
  have hkeep {cs : List Expr} (h : b ∉ cs) : (cs.map fun c => (c, rat (E c))) =
      cs.map fun c => (c, rat (E c + if b = c then e else 0)) := by
    refine List.map_congr_left fun c hc => ?_
    have hne : b ≠ c := fun hbc => h (hbc ▸ hc)
    rw [if_neg hne, add_zero]
  by_cases hb : b ∈ bs
  · rw [if_pos hb]
    clear hE
    induction bs with
    | nil => simp at hb
    | cons c bs ih =>
      obtain ⟨hc, hbs⟩ := List.nodup_cons.1 hbs
      rw [List.map_cons, List.map_cons, collectBase]
      by_cases hcb : c = b
      · subst hcb
        rw [if_pos rfl, if_pos rfl, sum_rat_rat, hkeep hc]
      · rw [if_neg hcb, if_neg (Ne.symm hcb), add_zero,
          ih hbs ((List.mem_cons.1 hb).resolve_left (Ne.symm hcb))]
  · rw [if_neg hb, collectBase_of_notMem (by simpa using hb), List.map_append, ← hkeep hb]
    simp [hE hb]

/-- Each base is collected once, with the sum of its exponents. -/
theorem collectBases_powers {xs : List Expr}
    (h : ∀ f ∈ nonRats xs, Atom f ∧ ∃ e, (asBase f).2 = rat e) :
    ∃ bs : List Expr, bs.Nodup ∧ (∀ b, b ∈ bs ↔ ∃ f ∈ nonRats xs, (asBase f).1 = b) ∧
      collectBases xs = ⟨(xs.filterMap rat?).prod, false, bs.map fun b => (b, rat (exponent b (nonRats xs)))⟩ := by
  induction xs using List.reverseRecOn with
  | nil => exact ⟨[], by simp, by simp [nonRats], by simp [collectBases]⟩
  | append_singleton xs f ih =>
    have happend : nonRats (xs ++ [f]) = nonRats xs ++ nonRats [f] := List.filter_append ..
    rw [happend] at h ⊢
    obtain ⟨bs, hnodup, hmem, hcollect⟩ := ih fun x hx => h x (List.mem_append_left _ hx)
    have hstep : collectBases (xs ++ [f]) = (collectBases xs).insertBase f := by simp [collectBases]
    rw [hstep, hcollect]
    cases hr : f.rat? with
    | some q =>
      obtain rfl := eq_rat_of_rat? hr
      refine ⟨bs, hnodup, by simpa [nonRats, rat?] using hmem, ?_⟩
      simp [FactorGroups.insertBase, nonRats, rat?]
    | none =>
      have hf : nonRats [f] = [f] := by simp [nonRats, hr]
      rw [hf] at h ⊢
      obtain ⟨hatom, e, he⟩ := h f (by simp)
      have hnew : (asBase f).1 ∉ bs → exponent (asBase f).1 (nonRats xs) = 0 := fun hb =>
        exponent_eq_zero fun x hx hxf => hb ((hmem _).2 ⟨x, hx, hxf⟩)
      have hinsert : ∀ g : FactorGroups (Expr × Expr), g.insertBase f =
          { g with others := collectBase (asBase f).1 (asBase f).2 g.others } := by
        intro g
        cases f with
        | rat q => cases hr
        | infinity => exact absurd rfl hatom.notInfinity
        | _ => rfl
      refine ⟨if (asBase f).1 ∈ bs then bs else bs ++ [(asBase f).1], ?_, fun b => ?_, ?_⟩
      · split
        · exact hnodup
        · rename_i hb
          exact List.nodup_append.2 ⟨hnodup, by simp, by
            rintro a ha c hc rfl
            exact hb (List.mem_singleton.1 hc ▸ ha)⟩
      · have hmem' : b ∈ (if (asBase f).1 ∈ bs then bs else bs ++ [(asBase f).1]) ↔ b ∈ bs ∨ (asBase f).1 = b := by
          split
          · rename_i hb
            exact ⟨.inl, fun h => h.elim id fun h => h ▸ hb⟩
          · simp [eq_comm]
        rw [hmem', hmem]
        simp [or_and_right, exists_or]
      · rw [hinsert, he]
        dsimp only
        rw [collectBase_exponents _ e hnodup hnew]
        congr 1
        · simp [hr]
        · refine List.map_congr_left fun c _ => ?_
          rw [exponent_append, exponent_cons, he]
          simp [rat?]

/-! ## Products -/

/-- A product of powers, each rebuilt to an atom from the sum of the exponents of its base. -/
theorem productWithin_powers (shown : Expr → Expr) {xs fs : List Expr} {c : Rat} (hflat : Flat xs c fs) (hc : c ≠ 0)
    (hfs : ∀ f ∈ fs, Atom f ∧ ∃ e, (asBase f).2 = rat e)
    (hshown : ∀ f ∈ fs, Atom (shown (asBase f).1) ∧
      ∀ k, powerWithin (k + 1) (asBase f).1 (rat (exponent (asBase f).1 fs)) = shown (asBase f).1) :
    ∃ bs : List Expr, bs.Nodup ∧ (∀ b, b ∈ bs ↔ ∃ f ∈ fs, (asBase f).1 = b) ∧
      ∀ k, productWithin (k + 2) xs = times c (sortFactors (bs.map shown)) := by
  obtain ⟨hcoeff, hrest⟩ := hflat
  rw [← hrest] at hfs
  obtain ⟨bs, hnodup, hmem, hcollect⟩ := collectBases_powers hfs
  rw [hcoeff, hrest] at hcollect
  rw [hrest] at hmem hfs
  refine ⟨bs, hnodup, hmem, fun k => ?_⟩
  have hatom : ∀ x ∈ bs.map shown, Atom x := by
    intro x hx
    obtain ⟨b, hb, rfl⟩ := List.mem_map.1 hx
    obtain ⟨f, hf, rfl⟩ := (hmem b).1 hb
    exact (hshown f hf).1
  have hany : (flattenFactors xs).any (· = undefined) = false := by
    simp only [List.any_eq_false, decide_eq_true_eq]
    rintro x hx rfl
    have hx' : undefined ∈ fs := hrest ▸ mem_nonRats.2 ⟨hx, rfl⟩
    exact (hfs _ hx').1.notUndefined rfl
  have hrebuilt :
      ((bs.map fun b => (b, rat (exponent b fs))).map fun g => powerWithin (k + 1) g.1 g.2) = bs.map shown := by
    rw [List.map_map]
    refine List.map_congr_left fun b hb => ?_
    obtain ⟨f, hf, rfl⟩ := (hmem b).1 hb
    exact (hshown f hf).2 k
  have hanyRebuilt : (bs.map shown).any (· = undefined) = false := by
    simp only [List.any_eq_false, decide_eq_true_eq]
    exact fun x hx => (hatom x hx).notUndefined
  have hparts : collectRebuilt c false (bs.map shown) = ⟨c, false, bs.map shown⟩ := by
    rw [collectRebuilt_eq c fun x hx => (hatom x hx).notInfinity,
      List.filterMap_eq_nil_iff.2 fun x hx => (hatom x hx).notRat,
      List.filter_eq_self.2 fun x hx => by simp [(hatom x hx).notRat], List.prod_nil, mul_one]
  rw [productWithin, productStep, hany, hcollect]
  dsimp only
  rw [hrebuilt, hanyRebuilt, hparts, multiplyOut, if_neg hc,
    any_isProduct_eq_false fun x hx => (hatom x hx).notProduct]
  simp only [Bool.false_eq_true, if_false]
  split
  · rename_i ts hts
    have hsum := (hatom (add ts) (hts ▸ List.mem_singleton_self _)).notSum
    cases hsum
  · exact assemble_eq_times c _

/-- Where no two factors have one base, each is rebuilt on its own. -/
theorem productWithin_rebuilt (shown : Expr → Expr) {xs fs : List Expr} {c : Rat} (hflat : Flat xs c fs) (hc : c ≠ 0)
    (hnodup : (fs.map fun f => (asBase f).1).Nodup)
    (hfs : ∀ f ∈ fs, Atom f ∧ Atom (shown (asBase f).1) ∧ (∃ e, (asBase f).2 = rat e) ∧
      ∀ k, powerWithin (k + 1) (asBase f).1 (asBase f).2 = shown (asBase f).1) :
    ∃ hs : List Expr, hs.Perm (fs.map fun f => shown (asBase f).1) ∧
      ∀ k, productWithin (k + 2) xs = times c hs := by
  obtain ⟨bs, hbs, hmem, hprod⟩ := productWithin_powers shown hflat hc
    (fun f hf => ⟨(hfs f hf).1, (hfs f hf).2.2.1⟩) fun f hf => by
      refine ⟨(hfs f hf).2.1, fun k => ?_⟩
      obtain ⟨e, he⟩ := (hfs f hf).2.2.1
      rw [exponent_of_nodup hf hnodup, he]
      exact he ▸ (hfs f hf).2.2.2 k
  have hperm : bs.Perm (fs.map fun f => (asBase f).1) :=
    (List.perm_ext_iff_of_nodup hbs hnodup).2 fun b => by rw [hmem, List.mem_map]
  refine ⟨_, ?_, hprod⟩
  have hmap := hperm.map shown
  rw [List.map_map] at hmap
  exact (List.mergeSort_perm _ _).trans hmap

/-! ## Sums -/

section Times

variable {c : Rat} {fs : List Expr}

/-- A coefficient with atoms behind it is no rational. -/
theorem rat?_times (hne : fs ≠ []) (h : ∀ f ∈ fs, Atom f) : (times c fs).rat? = none :=
  rat?_times_of_notRat (fun f hf => (h f hf).notRat) hne c

theorem isSum_times (h : ∀ f ∈ fs, Atom f) : (times c fs).isSum = false := by
  refine isSum_times_of_notLone ?_ c
  rintro ts rfl
  cases (h (add ts) (by simp)).notSum

theorem infinitySign?_times (h : ∀ f ∈ fs, Atom f) : (times c fs).infinitySign? = none := by
  have hinf : ∀ x, Flat [x] c fs → x.infinitySign? = none := by
    intro x hx
    unfold infinitySign?
    split
    · have hmem : infinity ∈ fs := hx.rest ▸ by simp [flattenFactors, nonRats, rat?]
      exact absurd rfl (h _ hmem).notInfinity
    · have hmem : infinity ∈ fs := hx.rest ▸ by simp [flattenFactors, nonRats, rat?]
      exact absurd rfl (h _ hmem).notInfinity
    · rfl
  exact hinf _ (.times c h)

theorem times_ne_undefined (h : ∀ f ∈ fs, Atom f) : times c fs ≠ undefined := by
  intro hu
  have hflat := Flat.times c h
  rw [hu] at hflat
  have hmem : undefined ∈ fs := hflat.rest ▸ by simp [flattenFactors, nonRats, rat?]
  exact (h _ hmem).notUndefined rfl

theorem insert_times (hne : fs ≠ []) (h : ∀ f ∈ fs, Atom f) (g : TermGroups) :
    g.insert (times c fs) = { g with groups := collectTerm (times 1 fs) c g.groups } := by
  have hr := rat?_times (c := c) hne h
  unfold TermGroups.insert
  split
  · rename_i q heq
    rw [heq] at hr
    cases hr
  · rw [infinitySign?_times h, splitCoeff_times (fun f hf => (h f hf).notRat) fun f hf => (h f hf).notProduct]

/-- Atoms with a coefficient stand beside a rational as they are. -/
theorem sum_rat_times (a : Rat) (hc : c ≠ 0) (hne : fs ≠ []) (h : ∀ f ∈ fs, Atom f) {ts : List Expr}
    (hts : ts = [rat a, times c fs] ∨ ts = [times c fs, rat a]) :
    sum ts = if a = 0 then times c fs else add [times c fs, rat a] := by
  have hkept : keptTerms [(times 1 fs, c)] = [times c fs] := by
    simp [keptTerms, hc, withCoeff_times (fun f hf => (h f hf).notRat) fun f hf => (h f hf).notProduct]
  have hsum := isSum_times (c := c) h
  have hflat : flattenTerms ts = ts := by
    rcases hts with rfl | rfl <;> cases heq : times c fs <;> simp_all [flattenTerms, isSum]
  have hany : ts.any (· = undefined) = false := by
    rcases hts with rfl | rfl <;> simp [times_ne_undefined h]
  have hfold : ts.foldl TermGroups.insert TermGroups.empty = ⟨a, false, false, [(times 1 fs, c)]⟩ := by
    rcases hts with rfl | rfl <;>
      simp only [List.foldl_cons, List.foldl_nil, insert_times hne h] <;>
      simp [TermGroups.insert, TermGroups.empty, collectTerm]
  have hsorted : sortTerms [times c fs, rat a] = [times c fs, rat a] := by
    refine sortTerms_of_sorted ?_
    have hplace : (times c fs).termPlace = 0 := by
      have hr := rat?_times (c := c) hne h
      have hinf := infinitySign?_times (c := c) h
      unfold termPlace
      split
      · rename_i q heq
        rw [heq] at hr
        cases hr
      · rw [hinf]
        rfl
    have hlt : compareTerms (times c fs) (rat a) = .lt := by
      rw [compareTerms, hplace]
      rfl
    refine List.pairwise_cons.2 ⟨fun x hx => ?_, List.pairwise_singleton _ _⟩
    rw [List.mem_singleton.1 hx, hlt]
    rfl
  rw [sum, hflat, hany, hfold]
  simp only [Bool.false_eq_true, if_false, Bool.and_self, Bool.or_self]
  change (if a ≠ 0 then ofTerms (keptTerms [(times 1 fs, c)] ++ [rat a]) else
    ofTerms (keptTerms [(times 1 fs, c)])) = _
  rw [hkept]
  by_cases ha : a = 0
  · simp [ha, ofTerms]
  · rw [if_pos ha, if_neg ha]
    exact congrArg add hsorted

end Times

end SymbolicSolver.Expr
