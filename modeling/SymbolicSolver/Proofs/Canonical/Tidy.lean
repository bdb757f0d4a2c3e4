import SymbolicSolver.Proofs.Canonical.Product

/-!
# Rationals in canonical trees

In a canonical tree a product has no products among its factors and at most one rational, its coefficient in
front, and a sum has at most one rational term. `Tidy` says so of every node, and the canonical sum, product and
power build tidy trees from tidy operands, whatever their number of rounds.
-/

namespace SymbolicSolver.Expr

mutual

/-- Every sum in the tree has at most one rational term, and every product has no product among its factors and no
rational behind the first one. -/
def Tidy : Expr → Prop
  | add ts => AllTidy ts ∧ (ts.filterMap rat?).length ≤ 1
  | mul fs => AllTidy fs ∧ (∀ f ∈ fs, f.isProduct = false) ∧ ∀ f ∈ fs.tail, f.rat? = none
  | pow b x => Tidy b ∧ Tidy x
  | fn _ x => Tidy x
  | _ => True

/-- Every tree of a list is tidy. -/
def AllTidy : List Expr → Prop
  | [] => True
  | x :: xs => Tidy x ∧ AllTidy xs

end

theorem allTidy_iff (xs : List Expr) : AllTidy xs ↔ ∀ x ∈ xs, Tidy x := by
  induction xs with
  | nil => simp [AllTidy]
  | cons x xs ih => simp [AllTidy, ih]

theorem tidy_add (ts : List Expr) :
    Tidy (add ts) ↔ (∀ t ∈ ts, Tidy t) ∧ (ts.filterMap rat?).length ≤ 1 := by
  rw [← allTidy_iff]
  rfl

theorem tidy_mul (fs : List Expr) :
    Tidy (mul fs) ↔ (∀ f ∈ fs, Tidy f) ∧ (∀ f ∈ fs, f.isProduct = false) ∧
      ∀ f ∈ fs.tail, f.rat? = none := by
  rw [← allTidy_iff]
  rfl

theorem tidy_pow (b x : Expr) : Tidy (pow b x) ↔ Tidy b ∧ Tidy x := Iff.rfl

@[simp] theorem tidy_rat (q : Rat) : Tidy (rat q) := trivial

@[simp] theorem tidy_i : Tidy i := trivial

@[simp] theorem tidy_infinity : Tidy infinity := trivial

@[simp] theorem tidy_undefined : Tidy undefined := trivial

@[simp] theorem tidy_zero : Tidy zero := trivial

@[simp] theorem tidy_one : Tidy one := trivial

@[simp] theorem tidy_negInfinity : Tidy negInfinity := by
  simp [negInfinity, tidy_mul, rat?, isProduct]

/-! ## Sums -/

/-- A tidy tree that is no rational and has no coefficient in front. -/
structure Bare (x : Expr) : Prop where
  tidy : Tidy x
  notRat : x.rat? = none
  noCoeff : ∀ fs, x = mul fs → ∀ f ∈ fs, f.rat? = none

theorem flattenTerms_tidy {ts : List Expr} (h : ∀ t ∈ ts, Tidy t) : ∀ t ∈ flattenTerms ts, Tidy t :=
  fun t ht => (flattenTerms_all (fun hy => ((tidy_add _).1 hy).1) h t ht).1

theorem splitCoeff_bare {t : Expr} (ht : Tidy t) (hn : t.rat? = none) : Bare t.splitCoeff.2 := by
  unfold splitCoeff
  split
  · simp [rat?] at hn
  · rename_i q fs
    obtain ⟨hfs, hp, htail⟩ := (tidy_mul _).1 ht
    rw [List.forall_mem_cons] at hfs hp
    rw [List.tail_cons] at htail
    unfold ofFactors
    split
    · -- The one factor behind a coefficient is no product, so it has no coefficient of its own.
      rename_i f
      have hf := List.mem_singleton_self f
      refine ⟨hfs.2 f hf, htail f hf, ?_⟩
      rintro gs rfl
      simp [isProduct] at hp
    · refine ⟨(tidy_mul _).2 ⟨hfs.2, hp.2, fun f hf => htail f (List.mem_of_mem_tail hf)⟩, rfl, ?_⟩
      rintro gs ⟨⟩
      exact htail
  · rename_i hx
    refine ⟨ht, hn, ?_⟩
    rintro fs rfl f hf
    obtain ⟨-, -, htail⟩ := (tidy_mul fs).1 ht
    cases fs with
    | nil => simp at hf
    | cons g gs =>
      rcases List.mem_cons.1 hf with rfl | hf
      · cases f with
        | rat q => exact absurd rfl (hx q gs)
        | _ => rfl
      · exact htail f hf

/-- Terms that are put into a canonical sum: tidy and no rationals. -/
theorem withCoeff_tidy (c : Rat) {x : Expr} (hx : Bare x) :
    Tidy (withCoeff c x) ∧ (withCoeff c x).rat? = none := by
  have hone : x.isOne = false := by
    have := hx.notRat
    cases x <;> simp_all [isOne, rat?]
  unfold withCoeff
  rw [hone, if_neg Bool.false_ne_true]
  split
  · exact ⟨hx.tidy, hx.notRat⟩
  · split
    · rename_i fs
      obtain ⟨hfs, hp, -⟩ := (tidy_mul fs).1 hx.tidy
      refine ⟨(tidy_mul _).2 ⟨?_, ?_, hx.noCoeff fs rfl⟩, rfl⟩
      · exact List.forall_mem_cons.2 ⟨tidy_rat c, hfs⟩
      · exact List.forall_mem_cons.2 ⟨rfl, hp⟩
    · refine ⟨(tidy_mul _).2 ⟨?_, ?_, ?_⟩, rfl⟩
      · simp [hx.tidy]
      · simp [isProduct]
      · simp [hx.notRat]

theorem ofTerms_tidy {ts : List Expr} (ht : ∀ t ∈ ts, Tidy t)
    (hr : (ts.filterMap rat?).length ≤ 1) : Tidy (ofTerms ts) := by
  unfold ofTerms
  split
  · exact tidy_zero
  · exact ht _ (List.mem_singleton_self _)
  · have hperm : (sortTerms ts).Perm ts := List.mergeSort_perm ts _
    rw [tidy_add, (hperm.filterMap rat?).length_eq]
    exact ⟨fun t h => ht t (hperm.mem_iff.1 h), hr⟩

/-- Terms none of which is rational may be followed by one more term. -/
theorem ofTerms_concat_tidy {ts : List Expr} (ht : ∀ t ∈ ts, Tidy t ∧ t.rat? = none) {x : Expr}
    (hx : Tidy x) : Tidy (ofTerms (ts ++ [x])) := by
  have hnone : ts.filterMap rat? = [] := List.filterMap_eq_nil_iff.2 fun t h => (ht t h).2
  refine ofTerms_tidy ?_ ?_
  · intro t h
    rcases List.mem_append.1 h with h | h
    · exact (ht t h).1
    · exact List.mem_singleton.1 h ▸ hx
  · rw [List.filterMap_append, hnone, List.nil_append]
    exact List.length_filterMap_le _ _

theorem sum_tidy {ts : List Expr} (h : ∀ t ∈ ts, Tidy t) : Tidy (sum ts) := by
  have hbare := TermGroups.rests_insertAll (Q := Bare) (fun t ht hr _ => splitCoeff_bare (flattenTerms_tidy h t ht) hr)
    (g := .empty) (by simp [TermGroups.empty])
  simp only [sum]
  generalize (flattenTerms ts).foldl TermGroups.insert TermGroups.empty = parts at hbare ⊢
  have hkept : ∀ t ∈ keptTerms parts.groups, Tidy t ∧ t.rat? = none := by
    intro t ht
    simp only [keptTerms, List.mem_map, List.mem_filter] at ht
    obtain ⟨g, ⟨hg, -⟩, rfl⟩ := ht
    exact withCoeff_tidy g.2 (hbare g hg)
  have hinf : Tidy (if parts.hasPosInfinity then infinity else negInfinity) := by
    split <;> simp
  rw [keptTerms] at hkept
  split
  · exact tidy_undefined
  · split
    · -- infinities of both signs
      exact tidy_undefined
    · split
      · split
        · exact hinf
        · exact ofTerms_concat_tidy hkept hinf
      · split
        · -- the rational part becomes the one rational term
          exact ofTerms_concat_tidy hkept (tidy_rat _)
        · refine ofTerms_tidy (fun t ht => (hkept t ht).1) ?_
          rw [List.filterMap_eq_nil_iff.2 fun t ht => (hkept t ht).2]
          exact Nat.zero_le 1

/-! ## Products -/

theorem flattenFactors_tidy {fs : List Expr} (h : ∀ f ∈ fs, Tidy f) :
    ∀ f ∈ flattenFactors fs, Tidy f ∧ f.isProduct = false :=
  flattenFactors_all (fun hy => ((tidy_mul _).1 hy).1) h

theorem collectBases_tidy {fs : List Expr} (h : ∀ f ∈ fs, Tidy f) :
    ∀ g ∈ (collectBases fs).others, Tidy g.1 ∧ Tidy g.2 := by
  refine collectBases_all (P := fun b x => Tidy b ∧ Tidy x)
    (fun hx hy => ⟨hx.1, sum_tidy (by simpa using ⟨hx.2, hy.2⟩)⟩) fun f hf _ _ => ?_
  cases f with
  | pow b x => exact h _ hf
  | _ => exact ⟨h _ hf, tidy_one⟩

/-- What is collected besides the coefficient is no rational. -/
theorem collectRebuilt_others (c : Rat) (inf : Bool) (fs : List Expr) :
    (∀ f ∈ (collectRebuilt c inf fs).others, f.rat? = none) ∧
      ∀ f ∈ (collectRebuilt c inf fs).others, f ∈ fs := by
  rw [collectRebuilt_parts]
  exact ⟨fun f hf => (mem_plainFactors.1 hf).2.1, fun f hf => (mem_plainFactors.1 hf).1⟩

/-- Factors of a tidy product: tidy, no products and no rationals. -/
structure TidyFactors (fs : List Expr) : Prop where
  tidy : ∀ f ∈ fs, Tidy f
  notProduct : ∀ f ∈ fs, f.isProduct = false
  notRat : ∀ f ∈ fs, f.rat? = none

theorem TidyFactors.ofFactors {fs : List Expr} (h : TidyFactors fs) : Tidy (ofFactors fs) := by
  unfold Expr.ofFactors
  split
  · exact h.tidy _ (List.mem_singleton_self _)
  · exact (tidy_mul fs).2 ⟨h.tidy, h.notProduct, fun f hf => h.notRat f (List.mem_of_mem_tail hf)⟩

/-- A coefficient may stand in front. -/
theorem TidyFactors.ofFactors_cons (c : Rat) {fs : List Expr} (h : TidyFactors fs) :
    Tidy (Expr.ofFactors (rat c :: fs)) := by
  unfold Expr.ofFactors
  split
  · rename_i heq
    rw [List.cons_eq_cons] at heq
    exact heq.1 ▸ tidy_rat c
  · refine (tidy_mul _).2 ⟨?_, ?_, h.notRat⟩
    · exact List.forall_mem_cons.2 ⟨tidy_rat c, h.tidy⟩
    · exact List.forall_mem_cons.2 ⟨rfl, h.notProduct⟩

theorem TidyFactors.perm {fs gs : List Expr} (h : TidyFactors fs) (hp : gs.Perm fs) :
    TidyFactors gs :=
  ⟨fun f hf => h.tidy f (hp.mem_iff.1 hf), fun f hf => h.notProduct f (hp.mem_iff.1 hf),
    fun f hf => h.notRat f (hp.mem_iff.1 hf)⟩

theorem assemble_tidy (c : Rat) {fs : List Expr} (inf : Bool) (h : TidyFactors fs) :
    Tidy (assemble c fs inf) := by
  have hsorted : TidyFactors (sortFactors fs) := h.perm (List.mergeSort_perm fs _)
  have hall : TidyFactors (sortFactors fs ++ if inf then [infinity] else []) := by
    cases inf with
    | false => simpa using hsorted
    | true =>
      refine ⟨?_, ?_, ?_⟩
      · simpa [or_imp, forall_and] using hsorted.tidy
      · simpa [or_imp, forall_and, isProduct] using hsorted.notProduct
      · simpa [or_imp, forall_and, rat?] using hsorted.notRat
  simp only [assemble]
  generalize sortFactors fs ++ (if inf then [infinity] else []) = gs at hall ⊢
  split
  · exact hall.ofFactors_cons c
  · exact hall.ofFactors

theorem infiniteProduct_tidy (c : Rat) {fs : List Expr} (h : TidyFactors fs) :
    Tidy (infiniteProduct c fs) := by
  simp only [infiniteProduct]
  generalize (if c < 0 then (-1 : Int) else 1) = unit
  generalize (if fs.all isConstant then (mul fs).constantSign? else none) = restSign
  cases restSign with
  | none => exact assemble_tidy _ true h
  | some s =>
    dsimp only
    split
    · exact tidy_undefined
    · split
      · exact tidy_infinity
      · exact tidy_negInfinity

theorem multiplyOut_tidy {product : List Expr → Expr}
    (hprod : ∀ fs, (∀ f ∈ fs, Tidy f) → Tidy (product fs)) {parts : FactorGroups Expr}
    (ht : ∀ f ∈ parts.others, Tidy f) (hr : ∀ f ∈ parts.others, f.rat? = none) :
    Tidy (multiplyOut product parts) := by
  unfold multiplyOut
  split
  · split
    · exact tidy_undefined
    · exact tidy_zero
  · split
    · -- a factor is a product: everything goes round once more
      refine hprod _ fun f hf => ?_
      rcases List.mem_append.1 hf with hf | hf
      · exact ht f hf
      · rcases List.mem_cons.1 hf with rfl | hf
        · exact tidy_rat _
        · split at hf <;> simp_all
    · rename_i hany
      have hf : TidyFactors parts.others :=
        ⟨ht, fun f hf => by simpa using (List.any_eq_false.1 (by simpa using hany)) f hf, hr⟩
      split
      · exact infiniteProduct_tidy _ hf
      · split
        · rename_i ts hts
          have hadd : Tidy (add ts) := ht _ (by simp [hts])
          split
          · exact hadd
          · -- the coefficient spreads over the terms of a lone sum
            refine sum_tidy fun t h => ?_
            obtain ⟨u, hu, rfl⟩ := List.mem_map.1 h
            exact hprod _ (by simpa using ((tidy_add ts).1 hadd).1 u hu)
        · exact assemble_tidy _ false hf

theorem productStep_tidy {power : Expr → Expr → Expr} {product : List Expr → Expr}
    (hpow : ∀ b x, Tidy b → Tidy x → Tidy (power b x))
    (hprod : ∀ fs, (∀ f ∈ fs, Tidy f) → Tidy (product fs)) {fs : List Expr}
    (h : ∀ f ∈ fs, Tidy f) : Tidy (productStep power product fs) := by
  have hbases := collectBases_tidy fun f hf => (flattenFactors_tidy h f hf).1
  simp only [productStep]
  split
  · exact tidy_undefined
  · split
    · exact tidy_undefined
    · obtain ⟨hr, hm⟩ := collectRebuilt_others (collectBases (flattenFactors fs)).coeff
        (collectBases (flattenFactors fs)).hasInfinity
        ((collectBases (flattenFactors fs)).others.map fun g => power g.1 g.2)
      refine multiplyOut_tidy hprod (fun f hf => ?_) hr
      obtain ⟨g, hg, rfl⟩ := List.mem_map.1 (hm f hf)
      exact hpow _ _ (hbases g hg).1 (hbases g hg).2

theorem plainProduct_tidy {fs : List Expr} (h : ∀ f ∈ fs, Tidy f) : Tidy (plainProduct fs) := by
  have hflat := flattenFactors_tidy h
  obtain ⟨hr, hm⟩ := collectRebuilt_others 1 false (flattenFactors fs)
  exact assemble_tidy _ _
    ⟨fun f hf => (hflat f (hm f hf)).1, fun f hf => (hflat f (hm f hf)).2, hr⟩

/-! ## Powers -/

theorem plainPower_tidy {b x : Expr} (hb : Tidy b) (hx : Tidy x) : Tidy (plainPower b x) := by
  unfold plainPower
  split_ifs
  · exact tidy_undefined
  · exact tidy_one
  · exact hb
  · exact tidy_one
  · exact tidy_undefined
  · exact ⟨hb, hx⟩

theorem radical_tidy (n p q : Nat) : TidyFactors (radical n p q).2 := by
  have hnil : TidyFactors [] := ⟨by simp, by simp, by simp⟩
  have hpow (b x : Rat) : TidyFactors [pow (rat b) (rat x)] :=
    ⟨by simp [tidy_pow], by simp [isProduct], by simp [rat?]⟩
  unfold radical
  split
  · exact hnil
  · split
    · exact hnil
    · split
      · exact hpow _ _
      · exact hpow _ _

theorem TidyFactors.append {fs gs : List Expr} (hf : TidyFactors fs) (hg : TidyFactors gs) :
    TidyFactors (fs ++ gs) := by
  refine ⟨fun x hx => ?_, fun x hx => ?_, fun x hx => ?_⟩ <;> rcases List.mem_append.1 hx with h | h
  · exact hf.tidy x h
  · exact hg.tidy x h
  · exact hf.notProduct x h
  · exact hg.notProduct x h
  · exact hf.notRat x h
  · exact hg.notRat x h

theorem positiveRoot_tidy (b x : Rat) : Tidy (positiveRoot b x) := by
  have hf : TidyFactors (sortFactors ((radical b.num.natAbs (x - x.floor).num.natAbs x.den).2 ++
      (radical b.den (x.den - (x - x.floor).num.natAbs) x.den).2)) :=
    ((radical_tidy _ _ _).append (radical_tidy _ _ _)).perm (List.mergeSort_perm _ _)
  simp only [positiveRoot]
  generalize sortFactors _ = fs at hf ⊢
  split
  · simp [tidy_pow]
  · split
    · split
      · exact tidy_one
      · exact hf.tidy _ (List.mem_singleton_self _)
      · exact (tidy_mul _).2
          ⟨hf.tidy, hf.notProduct, fun f h => hf.notRat f (List.mem_of_mem_tail h)⟩
    · split
      · exact tidy_rat _
      · refine (tidy_mul _).2 ⟨?_, ?_, hf.notRat⟩
        · exact List.forall_mem_cons.2 ⟨tidy_rat _, hf.tidy⟩
        · exact List.forall_mem_cons.2 ⟨rfl, hf.notProduct⟩

theorem iPower_tidy (n : Int) : Tidy (iPower n) := by
  unfold iPower
  split
  · exact tidy_one
  · trivial
  · exact tidy_rat _
  · simp [tidy_mul, isProduct, rat?]

theorem rationalPower_tidy {product : List Expr → Expr}
    (hprod : ∀ fs, (∀ f ∈ fs, Tidy f) → Tidy (product fs)) (b x : Rat) :
    Tidy (rationalPower product b x) := by
  have hkept : Tidy (pow (rat b) (rat x)) := ⟨tidy_rat b, tidy_rat x⟩
  unfold rationalPower
  split
  · split
    · exact tidy_zero
    · exact tidy_undefined
  · split
    · split
      · exact tidy_rat _
      · exact hkept
    · split
      · exact hkept
      · split
        · split
          · refine hprod _ ?_
            simpa using ⟨iPower_tidy _, positiveRoot_tidy _ _⟩
          · exact hkept
        · exact positiveRoot_tidy b x

theorem infinitePower_tidy {b x : Expr} (hb : Tidy b) (hx : Tidy x) (sign : Int) :
    Tidy (infinitePower b x sign) := by
  have hkept : Tidy (pow b x) := ⟨hb, hx⟩
  simp only [infinitePower]
  split
  · exact hkept
  · split
    · exact hkept
    · split
      · exact hkept
      · repeat' split
        all_goals first | exact hkept | trivial

theorem infiniteBase_tidy {b x : Expr} (hb : Tidy b) (hx : Tidy x) (sign : Int) :
    Tidy (infiniteBase b x sign) := by
  have hkept : Tidy (pow b x) := ⟨hb, hx⟩
  unfold infiniteBase
  split
  · split
    · exact tidy_infinity
    · split
      · split
        · exact tidy_infinity
        · exact tidy_negInfinity
      · exact hkept
  · exact tidy_zero
  · exact hkept

theorem powerOfBase_tidy {power : Expr → Expr → Expr} {product : List Expr → Expr}
    (hpow : ∀ b x, Tidy b → Tidy x → Tidy (power b x))
    (hprod : ∀ fs, (∀ f ∈ fs, Tidy f) → Tidy (product fs)) {b x : Expr} (hb : Tidy b)
    (hx : Tidy x) : Tidy (powerOfBase power product b x) := by
  have hkept : Tidy (pow b x) := ⟨hb, hx⟩
  unfold powerOfBase
  split
  · split
    · exact hpow _ _ hb.1 (hprod _ (by simpa using ⟨hb.2, hx⟩))
    · exact hkept
  · rename_i fs
    obtain ⟨hfs, hp, htail⟩ := (tidy_mul fs).1 hb
    split
    · refine hprod _ fun f hf => ?_
      obtain ⟨g, hg, rfl⟩ := List.mem_map.1 hf
      exact hpow g x (hfs g hg) hx
    · split
      · rename_i c rest
        rw [List.forall_mem_cons] at hfs hp
        have hrest : Tidy (ofFactors rest) := TidyFactors.ofFactors ⟨hfs.2, hp.2, htail⟩
        split
        · refine hprod _ (List.forall_mem_cons.2 ⟨hpow _ _ (tidy_rat c) hx, ?_⟩)
          simpa using (tidy_pow _ _).2 ⟨hrest, hx⟩
        · exact hkept
      · exact hkept
  · exact hkept

theorem powerStep_tidy {power : Expr → Expr → Expr} {product : List Expr → Expr}
    (hpow : ∀ b x, Tidy b → Tidy x → Tidy (power b x))
    (hprod : ∀ fs, (∀ f ∈ fs, Tidy f) → Tidy (product fs)) {b x : Expr} (hb : Tidy b)
    (hx : Tidy x) : Tidy (powerStep power product b x) := by
  unfold powerStep
  split
  · exact tidy_undefined
  · split
    · exact tidy_one
    · split
      · exact hb
      · split
        · -- a power of one
          split
          · exact tidy_one
          · exact tidy_undefined
        · split
          · exact infinitePower_tidy hb hx _
          · exact infiniteBase_tidy hb hx _
          · split
            · exact rationalPower_tidy hprod _ _
            · split
              · exact iPower_tidy _
              · exact powerOfBase_tidy hpow hprod hb hx
            · exact hx
            · -- the coefficient of a logarithm in the exponent of `e` becomes the exponent
              obtain ⟨hfs, -, -⟩ := (tidy_mul _).1 hx
              have hlog : Tidy (fn .log _) := hfs _ (List.mem_cons_of_mem _ (List.mem_singleton_self _))
              exact hpow _ _ hlog (tidy_rat _)
            · exact powerOfBase_tidy hpow hprod hb hx

/-! ## All rounds -/

theorem within_tidy (n : Nat) :
    (∀ fs, (∀ f ∈ fs, Tidy f) → Tidy (productWithin n fs)) ∧
      ∀ b x, Tidy b → Tidy x → Tidy (powerWithin n b x) := by
  induction n with
  | zero =>
    exact ⟨fun _ => productStep_tidy (fun _ _ => plainPower_tidy) fun _ => plainProduct_tidy, fun _ _ => plainPower_tidy⟩
  | succ n ih =>
    obtain ⟨hprod, hpow⟩ := ih
    exact ⟨fun _ => productStep_tidy hpow hprod, fun _ _ => powerStep_tidy hpow hprod⟩

theorem product_tidy {fs : List Expr} (h : ∀ f ∈ fs, Tidy f) : Tidy (product fs) :=
  (within_tidy _).1 fs h

theorem power_tidy {b x : Expr} (hb : Tidy b) (hx : Tidy x) : Tidy (power b x) :=
  (within_tidy _).2 b x hb hx

end SymbolicSolver.Expr
