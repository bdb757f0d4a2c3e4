import SymbolicSolver.Proofs.Canonical.Nesting
import SymbolicSolver.Proofs.Canonical.Tidy

/-!
# How deep the constructors nest

Whatever the number of rounds, a sum nests no deeper than its operands, counted as sums, and a product no deeper than its
operands, counted as terms. Only powers and function applications go further down: a power by one level more than its
base and exponent together, an application by two.
-/

namespace SymbolicSolver.Expr

variable {k : Nat}

/-! ## Sums -/

theorem flattenTerms_nesting {ts : List Expr} (h : ∀ t ∈ ts, sumNesting t ≤ k) :
    ∀ t ∈ flattenTerms ts, termNesting t ≤ k := by
  intro t ht
  obtain ⟨hle, hs⟩ := flattenTerms_all (Q := fun t => sumNesting t ≤ k)
    (fun hy y hmem => Nat.le_trans (sumNesting_le_termNesting y) (((sumNesting_add_le _).1 hy).2 y hmem)) h t ht
  cases t with
  | add ys => cases hs
  | _ => exact hle

/-- What a coefficient multiplies, as factors. -/
theorem splitCoeff_nesting {t : Expr} (h : termNesting t ≤ k) (hk : 1 ≤ k) :
    termNesting t.splitCoeff.2 ≤ k := by
  unfold splitCoeff
  split
  · exact Nat.zero_le k
  · have hfactors := ((termNesting_mul_le _).1 h).2
    exact nesting_ofFactors_le (List.forall_mem_cons.1 hfactors).2 hk
  · exact h

theorem withCoeff_nesting (c : Rat) {x : Expr} (h : termNesting x ≤ k) (hk : 1 ≤ k) :
    termNesting (withCoeff c x) ≤ k := by
  unfold withCoeff
  split
  · exact Nat.zero_le k
  · split
    · exact h
    · split
      · have hfactors := ((termNesting_mul_le _).1 h).2
        exact (termNesting_mul_le _).2 ⟨hk, List.forall_mem_cons.2 ⟨Nat.zero_le k, hfactors⟩⟩
      · rename_i hmul
        have hx : nesting x ≤ k := by
          rwa [← termNesting_eq]
          cases x <;> first | rfl | exact absurd rfl (hmul _)
        exact (termNesting_mul_le _).2 ⟨hk, by simpa using hx⟩

theorem ofTerms_nesting {ts : List Expr} (h : ∀ t ∈ ts, termNesting t ≤ k) (hk : 1 ≤ k) :
    sumNesting (ofTerms ts) ≤ k := by
  unfold ofTerms
  split
  · exact Nat.zero_le k
  · exact Nat.le_trans (sumNesting_le_termNesting _) (h _ (List.mem_singleton_self _))
  · have hperm : (sortTerms ts).Perm ts := List.mergeSort_perm ts _
    exact (sumNesting_add_le _).2 ⟨hk, fun t ht => h t (hperm.mem_iff.1 ht)⟩

theorem ofTerms_concat_nesting {ts : List Expr} (h : ∀ t ∈ ts, termNesting t ≤ k) (hk : 1 ≤ k)
    {x : Expr} (hx : termNesting x ≤ k) : sumNesting (ofTerms (ts ++ [x])) ≤ k := by
  refine ofTerms_nesting (fun t ht => ?_) hk
  rcases List.mem_append.1 ht with ht | ht
  · exact h t ht
  · exact List.mem_singleton.1 ht ▸ hx

/-- A sum nests no deeper than its operands. -/
theorem sum_nesting {ts : List Expr} (h : ∀ t ∈ ts, sumNesting t ≤ k) (hk : 1 ≤ k) :
    sumNesting (sum ts) ≤ k := by
  have hgroups := TermGroups.rests_insertAll (Q := fun x => termNesting x ≤ k)
    (fun t ht _ _ => splitCoeff_nesting (flattenTerms_nesting h t ht) hk) (g := .empty) (by simp [TermGroups.empty])
  simp only [sum]
  generalize (flattenTerms ts).foldl TermGroups.insert TermGroups.empty = parts at hgroups ⊢
  have hkept : ∀ t ∈ keptTerms parts.groups, termNesting t ≤ k := by
    intro t ht
    simp only [keptTerms, List.mem_map, List.mem_filter] at ht
    obtain ⟨g, ⟨hg, -⟩, rfl⟩ := ht
    exact withCoeff_nesting g.2 (hgroups g hg) hk
  have hinf : termNesting (if parts.hasPosInfinity then infinity else negInfinity) ≤ k := by
    split
    · exact hk
    · exact hk
  rw [keptTerms] at hkept
  split
  · exact hk
  · split
    · exact hk
    · split
      · split
        · exact Nat.le_trans (sumNesting_le_termNesting _) hinf
        · exact ofTerms_concat_nesting hkept hk hinf
      · split
        · exact ofTerms_concat_nesting hkept hk (Nat.zero_le k)
        · exact ofTerms_nesting hkept hk

/-! ## Products -/

theorem flattenFactors_nesting {fs : List Expr} (h : ∀ f ∈ fs, termNesting f ≤ k) :
    ∀ f ∈ flattenFactors fs, nesting f ≤ k := by
  intro f hf
  obtain ⟨hle, hproduct⟩ := flattenFactors_all (Q := fun f => termNesting f ≤ k)
    (fun hy y hmem => Nat.le_trans (termNesting_le_nesting y) (((termNesting_mul_le _).1 hy).2 y hmem)) h f hf
  exact termNesting_eq hproduct ▸ hle

/-- Exponents add up over a base without going deeper. -/
theorem nesting_pow_sum {b x y : Expr} (hx : nesting (pow b x) ≤ k) (hy : nesting (pow b y) ≤ k) :
    nesting (pow b (sum [x, y])) ≤ k := by
  obtain ⟨hk, hbase, hx⟩ := (nesting_pow_le _ _).1 hx
  have hy := ((nesting_pow_le _ _).1 hy).2.2
  refine (nesting_pow_le _ _).2 ⟨hk, hbase, ?_⟩
  by_cases hzero : sumNesting x = 0 ∧ sumNesting y = 0
  · -- two rational exponents add up to a rational
    obtain ⟨p, rfl⟩ := eq_rat_of_sumNesting hzero.1
    obtain ⟨q, rfl⟩ := eq_rat_of_sumNesting hzero.2
    rw [sum_rat_rat]
    simpa using hx
  · have hsum : sumNesting (sum [x, y]) ≤ max (sumNesting x) (sumNesting y) :=
      sum_nesting (by simp) (by omega)
    show sumNesting (sum [x, y]) + 1 + tower b ≤ k
    omega

theorem nesting_pow_one {f : Expr} (hpower : f.isPower = false) (h : nesting f ≤ k) (hk : 1 ≤ k) :
    nesting (pow f one) ≤ k := by
  have htower : 1 + tower f ≤ k := by
    cases f with
    | mul fs =>
      have := tower_le_sumNesting (mul fs)
      have : nesting (mul fs) = sumNesting (mul fs) + 1 := rfl
      omega
    | pow b x => simp [isPower] at hpower
    | _ => exact hk
  exact (nesting_pow_le f one).2 ⟨hk, by simpa [hpower] using h, by simpa [one] using htower⟩

theorem collectBases_nesting {fs : List Expr} (h : ∀ f ∈ fs, nesting f ≤ k) (hk : 1 ≤ k) :
    ∀ g ∈ (collectBases fs).others, nesting (pow g.1 g.2) ≤ k := by
  refine collectBases_all (P := fun b x => nesting (pow b x) ≤ k) nesting_pow_sum fun f hf _ _ => ?_
  cases f with
  | pow b x => exact h _ hf
  | _ => exact nesting_pow_one rfl (h _ hf) hk

theorem assemble_nesting (c : Rat) {fs : List Expr} (inf : Bool) (h : ∀ f ∈ fs, nesting f ≤ k)
    (hk : 1 ≤ k) : termNesting (assemble c fs inf) ≤ k := by
  have hperm : (sortFactors fs).Perm fs := List.mergeSort_perm fs _
  have hall : ∀ f ∈ sortFactors fs ++ (if inf then [infinity] else []), nesting f ≤ k := by
    intro f hf
    rcases List.mem_append.1 hf with hf | hf
    · exact h f (hperm.mem_iff.1 hf)
    · cases inf with
      | false => simp at hf
      | true => exact List.mem_singleton.1 hf ▸ hk
  simp only [assemble]
  generalize sortFactors fs ++ (if inf then [infinity] else []) = gs at hall ⊢
  refine nesting_ofFactors_le ?_ hk
  split
  · exact List.forall_mem_cons.2 ⟨Nat.zero_le k, hall⟩
  · exact hall

theorem infiniteProduct_nesting (c : Rat) {fs : List Expr} (h : ∀ f ∈ fs, nesting f ≤ k)
    (hk : 1 ≤ k) : termNesting (infiniteProduct c fs) ≤ k := by
  simp only [infiniteProduct]
  generalize (if c < 0 then (-1 : Int) else 1) = unit
  generalize (if fs.all isConstant then (mul fs).constantSign? else none) = restSign
  cases restSign with
  | none => exact assemble_nesting _ true h hk
  | some s =>
    dsimp only
    split
    · exact hk
    · split
      · exact hk
      · exact hk

theorem plainProduct_nesting {fs : List Expr} (h : ∀ f ∈ fs, termNesting f ≤ k) (hk : 1 ≤ k) :
    termNesting (plainProduct fs) ≤ k :=
  assemble_nesting _ _
    (fun f hf => flattenFactors_nesting h f ((collectRebuilt_others 1 false _).2 f hf)) hk

theorem plainPower_nesting {b x : Expr} (h : nesting (pow b x) ≤ k) : termNesting (plainPower b x) ≤ k := by
  obtain ⟨hk, hbase, -⟩ := (nesting_pow_le b x).1 h
  unfold plainPower
  split_ifs
  · exact hk
  · exact Nat.zero_le k
  · have := termNesting_le_nesting b
    omega
  · exact Nat.zero_le k
  · exact hk
  · exact h

/-! ## Rational and infinite powers -/

theorem nesting_pow_rat (b x : Rat) : nesting (pow (rat b) (rat x)) = 1 := rfl

theorem radical_nesting (n p q : Nat) : ∀ f ∈ (radical n p q).2, nesting f ≤ 1 := by
  have hroot (b x : Rat) : ∀ f ∈ [pow (rat b) (rat x)], nesting f ≤ 1 := by
    simp [nesting_pow_rat]
  unfold radical
  split
  · simp
  · split
    · simp
    · split
      · exact hroot _ _
      · exact hroot _ _

theorem positiveRoot_nesting (b x : Rat) : termNesting (positiveRoot b x) ≤ 1 := by
  have hroots : ∀ f ∈ sortFactors ((radical b.num.natAbs (x - x.floor).num.natAbs x.den).2 ++
      (radical b.den (x.den - (x - x.floor).num.natAbs) x.den).2), nesting f ≤ 1 := by
    intro f hf
    rcases List.mem_append.1 ((List.mergeSort_perm _ _).mem_iff.1 hf) with hf | hf
    · exact radical_nesting _ _ _ f hf
    · exact radical_nesting _ _ _ f hf
  simp only [positiveRoot]
  generalize sortFactors _ = fs at hroots ⊢
  split
  · exact Nat.le_refl 1
  · split
    · split
      · exact Nat.zero_le 1
      · exact Nat.le_trans (termNesting_le_nesting _) (hroots _ (List.mem_singleton_self _))
      · exact (termNesting_mul_le _).2 ⟨Nat.le_refl 1, hroots⟩
    · split
      · exact Nat.zero_le 1
      · exact (termNesting_mul_le _).2
          ⟨Nat.le_refl 1, List.forall_mem_cons.2 ⟨Nat.zero_le 1, hroots⟩⟩

theorem iPower_nesting (n : Int) : termNesting (iPower n) ≤ 1 := by
  unfold iPower
  split
  · exact Nat.zero_le 1
  · exact Nat.le_refl 1
  · exact Nat.zero_le 1
  · exact Nat.le_refl 1

theorem infinitePower_nesting {b x : Expr} (h : nesting (pow b x) ≤ k) (sign : Int) :
    termNesting (infinitePower b x sign) ≤ k := by
  have hk : 1 ≤ k := ((nesting_pow_le b x).1 h).1
  have hzero : termNesting zero ≤ k := Nat.zero_le k
  simp only [infinitePower]
  split
  · exact h
  · split
    · exact h
    · split
      · exact h
      · repeat' split
        all_goals first | exact h | exact hk | exact hzero

theorem infiniteBase_nesting {b x : Expr} (h : nesting (pow b x) ≤ k) (sign : Int) :
    termNesting (infiniteBase b x sign) ≤ k := by
  have hk : 1 ≤ k := ((nesting_pow_le b x).1 h).1
  unfold infiniteBase
  split
  · split
    · exact hk
    · split
      · split
        · exact hk
        · exact hk
      · exact h
  · exact Nat.zero_le k
  · exact h

/-! ## Steps and rounds -/

/-- A factor of the base stands in the power in place of the whole base. -/
theorem nesting_pow_factor {fs : List Expr} {f x : Expr} (h : nesting (pow (mul fs) x) ≤ k)
    (hf : f ∈ fs) : nesting (pow f x) ≤ k := by
  obtain ⟨hk, hbase, hexponent⟩ := (nesting_pow_le _ x).1 h
  have hbase : nesting (mul fs) ≤ k := hbase
  have hmul := nesting_mul fs
  have hfactor := ((termNesting_mul_le fs).1 (Nat.le_refl _)).2 f hf
  have htower := (towers_le fs).1 (Nat.le_refl (tower (mul fs))) f hf
  refine (nesting_pow_le f x).2 ⟨hk, ?_, by omega⟩
  split <;> omega

/-- So do the factors that follow a coefficient. -/
theorem nesting_pow_rest {fs : List Expr} {c : Rat} {x : Expr}
    (h : nesting (pow (mul (rat c :: fs)) x) ≤ k) : nesting (pow (ofFactors fs) x) ≤ k := by
  unfold ofFactors
  split
  · exact nesting_pow_factor h (by simp)
  · obtain ⟨hk, hbase, hexponent⟩ := (nesting_pow_le _ x).1 h
    have hnesting : nesting (mul fs) ≤ nesting (mul (rat c :: fs)) :=
      Nat.succ_le_succ (max_le_max_left 1 (Nat.le_max_right _ _))
    have htower : tower (mul fs) ≤ tower (mul (rat c :: fs)) := Nat.le_max_right _ _
    exact (nesting_pow_le _ x).2 ⟨hk, Nat.le_trans hnesting hbase, by omega⟩

theorem nesting_of_exp_log {u : Expr} (h : nesting (pow e (fn .log u)) ≤ k) : termNesting u ≤ k := by
  have hexponent := ((nesting_pow_le _ _).1 h).2.2
  have hfn : sumNesting (fn .log u) = sumNesting u + 2 := rfl
  have := termNesting_le_sumNesting u
  omega

theorem nesting_of_exp_mul_log {c : Rat} {u : Expr}
    (h : nesting (pow e (mul [rat c, fn .log u])) ≤ k) : nesting (pow u (rat c)) ≤ k := by
  obtain ⟨hk, -, hexponent⟩ := (nesting_pow_le _ _).1 h
  have hlog := ((termNesting_mul_le [rat c, fn .log u]).1 (Nat.le_refl _)).2 (fn .log u) (by simp)
  have hfn : nesting (fn .log u) = sumNesting u + 2 := rfl
  have hmul : sumNesting (mul [rat c, fn .log u]) = termNesting (mul [rat c, fn .log u]) := rfl
  have := nesting_le_sumNesting u
  have := tower_le_sumNesting u
  refine (nesting_pow_le _ _).2 ⟨hk, ?_, by simp only [sumNesting_rat]; omega⟩
  split <;> omega

section Steps

variable {power : Expr → Expr → Expr} {product : List Expr → Expr}
  (hpow : ∀ k b x, nesting (pow b x) ≤ k → termNesting (power b x) ≤ k)
  (hprod : ∀ k fs, 1 ≤ k → (∀ f ∈ fs, termNesting f ≤ k) → termNesting (product fs) ≤ k)

include hprod

theorem multiplyOut_nesting {parts : FactorGroups Expr} (h : ∀ f ∈ parts.others, termNesting f ≤ k)
    (hk : 1 ≤ k) : termNesting (multiplyOut product parts) ≤ k := by
  unfold multiplyOut
  split
  · split
    · exact hk
    · exact Nat.zero_le k
  · split
    · -- a factor is a product: everything goes round once more
      refine hprod k _ hk fun f hf => ?_
      rcases List.mem_append.1 hf with hf | hf
      · exact h f hf
      · rcases List.mem_cons.1 hf with rfl | hf
        · exact Nat.zero_le k
        · split at hf
          · exact List.mem_singleton.1 hf ▸ hk
          · simp at hf
    · rename_i hproducts
      have hfactors : ∀ f ∈ parts.others, nesting f ≤ k := by
        intro f hf
        have hproduct : f.isProduct = false := by
          simpa using fun hp => hproducts (List.any_eq_true.2 ⟨f, hf, hp⟩)
        exact termNesting_eq hproduct ▸ h f hf
      split
      · exact infiniteProduct_nesting _ hfactors hk
      · split
        · rename_i ts hts
          have hadd : nesting (add ts) ≤ k := hfactors _ (by simp [hts])
          split
          · exact hadd
          · -- the terms lie one level below the sum, and so do their multiples
            obtain ⟨hone, hterms⟩ := (sumNesting_add_le ts).1 (Nat.le_refl _)
            have hspread : sumNesting (sum (ts.map fun t => product [rat parts.coeff, t])) ≤
                sumNesting (add ts) := by
              refine sum_nesting (fun t ht => ?_) hone
              obtain ⟨u, hu, rfl⟩ := List.mem_map.1 ht
              refine Nat.le_trans (sumNesting_le_termNesting _) (hprod _ _ hone ?_)
              simpa using hterms u hu
            have := termNesting_le_sumNesting (sum (ts.map fun t => product [rat parts.coeff, t]))
            have := nesting_add ts
            omega
        · exact assemble_nesting _ false hfactors hk

theorem rationalPower_nesting (b x : Rat) (hk : 1 ≤ k) :
    termNesting (rationalPower product b x) ≤ k := by
  have hkept : termNesting (pow (rat b) (rat x)) ≤ k := hk
  unfold rationalPower
  split
  · split
    · exact Nat.zero_le k
    · exact hk
  · split
    · split
      · exact Nat.zero_le k
      · exact hkept
    · split
      · exact hkept
      · split
        · split
          · refine hprod k _ hk ?_
            simpa using ⟨Nat.le_trans (iPower_nesting _) hk, Nat.le_trans (positiveRoot_nesting _ _) hk⟩
          · exact hkept
        · exact Nat.le_trans (positiveRoot_nesting b x) hk

include hpow

theorem powerOfBase_nesting {b x : Expr} (h : nesting (pow b x) ≤ k) :
    termNesting (powerOfBase power product b x) ≤ k := by
  obtain ⟨hk, hbase, hexponent⟩ := (nesting_pow_le b x).1 h
  unfold powerOfBase
  split
  · rename_i b0 x0
    obtain ⟨-, hbase0, hexponent0⟩ := (nesting_pow_le b0 x0).1 (Nat.le_refl _)
    split
    · -- the level that the outer power has over the inner one pays for the product of the exponents
      have htower : sumNesting x + 1 + (tower b0 + 1) ≤ k := hexponent
      have hbase : nesting (pow b0 x0) + 1 ≤ k := hbase
      have hproduct : termNesting (product [x0, x]) ≤ k - 1 - tower b0 := by
        have := termNesting_le_sumNesting x0
        have := termNesting_le_sumNesting x
        refine hprod _ _ (by omega) ?_
        simp only [List.mem_cons, List.not_mem_nil, or_false, forall_eq_or_imp, forall_eq]
        omega
      have := sumNesting_le_termNesting (product [x0, x])
      exact hpow k _ _ ((nesting_pow_le _ _).2 ⟨hk, by omega, by omega⟩)
    · exact h
  · split
    · refine hprod k _ hk fun g hg => ?_
      obtain ⟨f, hf, rfl⟩ := List.mem_map.1 hg
      exact hpow k f x (nesting_pow_factor h hf)
    · split
      · split
        · refine hprod k _ hk fun f hf => ?_
          rcases List.mem_cons.1 hf with rfl | hf
          · exact hpow k _ _ (nesting_pow_factor h (by simp))
          · exact List.mem_singleton.1 hf ▸ nesting_pow_rest h
        · exact h
      · exact h
  · exact h

theorem powerStep_nesting {b x : Expr} (h : nesting (pow b x) ≤ k) :
    termNesting (powerStep power product b x) ≤ k := by
  obtain ⟨hk, hbase, hexponent⟩ := (nesting_pow_le b x).1 h
  unfold powerStep
  split
  · exact hk
  · split
    · exact Nat.zero_le k
    · split
      · have := termNesting_le_nesting b
        omega
      · split
        · -- a power of one
          split
          · exact Nat.zero_le k
          · exact hk
        · split
          · exact infinitePower_nesting h _
          · exact infiniteBase_nesting h _
          · split
            · exact rationalPower_nesting hprod _ _ hk
            · split
              · exact Nat.le_trans (iPower_nesting _) hk
              · exact powerOfBase_nesting hpow hprod h
            · exact nesting_of_exp_log h
            · exact hpow k _ _ (nesting_of_exp_mul_log h)
            · exact powerOfBase_nesting hpow hprod h

theorem productStep_nesting {fs : List Expr} (h : ∀ f ∈ fs, termNesting f ≤ k) (hk : 1 ≤ k) :
    termNesting (productStep power product fs) ≤ k := by
  have hbases := collectBases_nesting (flattenFactors_nesting h) hk
  simp only [productStep]
  split
  · exact hk
  · split
    · exact hk
    · refine multiplyOut_nesting hprod (fun f hf => ?_) hk
      obtain ⟨g, hg, rfl⟩ := List.mem_map.1 ((collectRebuilt_others _ _ _).2 f hf)
      exact hpow k _ _ (hbases g hg)

end Steps

/-- In every number of rounds a product nests no deeper than its operands, and a power no deeper than the power that
stands unevaluated. -/
theorem within_nesting (n : Nat) :
    (∀ k fs, 1 ≤ k → (∀ f ∈ fs, termNesting f ≤ k) → termNesting (productWithin n fs) ≤ k) ∧
      ∀ k b x, nesting (pow b x) ≤ k → termNesting (powerWithin n b x) ≤ k := by
  induction n with
  | zero =>
    exact ⟨fun k fs hk h => productStep_nesting (fun k b x => plainPower_nesting)
      (fun k fs hk h => plainProduct_nesting h hk) h hk, fun k b x => plainPower_nesting⟩
  | succ n ih =>
    obtain ⟨hprod, hpow⟩ := ih
    exact ⟨fun k fs hk h => productStep_nesting hpow hprod h hk,
      fun k b x h => powerStep_nesting hpow hprod h⟩

/-- A product nests no deeper than its operands. -/
theorem product_nesting {fs : List Expr} (h : ∀ f ∈ fs, termNesting f ≤ k) (hk : 1 ≤ k) :
    termNesting (product fs) ≤ k :=
  (within_nesting _).1 k fs hk h

theorem power_nesting_pow {b x : Expr} (h : nesting (pow b x) ≤ k) : termNesting (power b x) ≤ k :=
  (within_nesting _).2 k b x h

/-- A power nests at most one level deeper than its exponent over the tower of its base. -/
theorem power_nesting (b x : Expr) :
    termNesting (power b x) ≤ max (termNesting b) (sumNesting x + sumNesting b) + 1 := by
  have := tower_le_sumNesting b
  have hbase : (nesting b + if b.isPower then 1 else 0) ≤ termNesting b + 1 := by
    cases b with
    | mul fs => exact Nat.le_refl _
    | _ => simp [isPower, termNesting, isProduct]
  exact power_nesting_pow ((nesting_pow_le b x).2 ⟨by omega, by omega, by omega⟩)

/-! ## Short forms -/

theorem neg_nesting {x : Expr} (h : termNesting x ≤ k) (hk : 1 ≤ k) : termNesting (-x) ≤ k :=
  product_nesting (by simpa using h) hk

theorem inverse_nesting (x : Expr) : termNesting (inverse x) ≤ termNesting x + 1 := by
  have hpower := power_nesting x (rat (-1))
  have := sumNesting_le_termNesting x
  rw [sumNesting_rat] at hpower
  exact Nat.le_trans hpower (by omega)

theorem sqrt_nesting (x : Expr) : termNesting (sqrt x) ≤ termNesting x + 1 := by
  have hpower := power_nesting x half
  have hhalf : sumNesting half = 0 := rfl
  have := sumNesting_le_termNesting x
  exact Nat.le_trans hpower (by omega)

theorem exp_nesting (x : Expr) : termNesting (exp x) ≤ sumNesting x + 2 := by
  have hpower := power_nesting e x
  have hbase : termNesting e = 1 ∧ sumNesting e = 1 := ⟨rfl, rfl⟩
  exact Nat.le_trans hpower (by omega)

/-! ## Function applications -/

theorem sqrt_int_nesting (n : Int) : termNesting (sqrt (int n)) ≤ 1 := sqrt_nesting (int n)

theorem rootOver_nesting (n d : Nat) : termNesting (rootOver n d) ≤ 1 :=
  product_nesting (by simpa [frac] using sqrt_int_nesting n) (Nat.le_refl 1)

theorem mul_pi_nesting (q : Rat) : termNesting (product [rat q, pi]) ≤ 1 :=
  product_nesting (by simp; rfl) (Nat.le_refl 1)

/-- Table entries are rationals, the undefined value, and roots over whole numbers. -/
theorem entry_nesting :
    (∀ n d, termNesting (rootOver n d) ≤ 1) ∧ (∀ n d, termNesting (-rootOver n d) ≤ 1) ∧
      (∀ n, termNesting (sqrt (int n)) ≤ 1) ∧ ∀ n, termNesting (-sqrt (int n)) ≤ 1 :=
  ⟨rootOver_nesting, fun n d => neg_nesting (rootOver_nesting n d) (Nat.le_refl 1), sqrt_int_nesting,
    fun n => neg_nesting (sqrt_int_nesting n) (Nat.le_refl 1)⟩

theorem sinValue?_nesting {m n : Nat} {v : Expr} (h : sinValue? m n = some v) : termNesting v ≤ 1 := by
  obtain ⟨hroot, hneg, -, -⟩ := entry_nesting
  unfold sinValue? at h
  split at h
  all_goals simp only [Option.some.injEq, reduceCtorEq] at h
  all_goals subst h
  all_goals first
    | with_reducible exact hroot _ _ | with_reducible exact hneg _ _ | exact Nat.zero_le 1

theorem cosValue?_nesting {m n : Nat} {v : Expr} (h : cosValue? m n = some v) : termNesting v ≤ 1 := by
  obtain ⟨hroot, hneg, -, -⟩ := entry_nesting
  unfold cosValue? at h
  split at h
  all_goals simp only [Option.some.injEq, reduceCtorEq] at h
  all_goals subst h
  all_goals first
    | with_reducible exact hroot _ _ | with_reducible exact hneg _ _ | exact Nat.zero_le 1

theorem tanValue?_nesting {m n : Nat} {v : Expr} (h : tanValue? m n = some v) : termNesting v ≤ 1 := by
  obtain ⟨hroot, hneg, hsqrt, hnegSqrt⟩ := entry_nesting
  unfold tanValue? at h
  split at h
  all_goals simp only [Option.some.injEq, reduceCtorEq] at h
  all_goals subst h
  all_goals first
    | with_reducible exact hroot _ _ | with_reducible exact hneg _ _
    | with_reducible exact hsqrt _ | with_reducible exact hnegSqrt _
    | exact Nat.zero_le 1 | exact Nat.le_refl 1

theorem atAngle?_nesting {table : Nat → Nat → Option Expr} {halfTurns : Int} {x v : Expr}
    (htable : ∀ {m n v}, table m n = some v → termNesting v ≤ k)
    (h : atAngle? table halfTurns x = some v) : termNesting v ≤ k := by
  obtain ⟨c, -, hc⟩ := Option.bind_eq_some_iff.1 h
  dsimp only at hc
  split at hc
  · exact htable hc
  · simp at hc

theorem reciprocal_nesting {v : Expr} (h : termNesting v ≤ 1) : termNesting (reciprocal v) ≤ 2 := by
  unfold reciprocal
  split
  · exact Nat.le_succ 1
  · exact Nat.le_trans (inverse_nesting v) (Nat.succ_le_succ h)

theorem circularValue?_nesting {f : Func} {x v : Expr} (h : circularValue? f x = some v) :
    termNesting v ≤ 2 := by
  unfold circularValue? at h
  split at h
  · exact Nat.le_succ_of_le (atAngle?_nesting sinValue?_nesting h)
  · exact Nat.le_succ_of_le (atAngle?_nesting cosValue?_nesting h)
  · exact Nat.le_succ_of_le (atAngle?_nesting tanValue?_nesting h)
  · obtain ⟨w, hw, rfl⟩ := Option.map_eq_some_iff.1 h
    exact reciprocal_nesting (atAngle?_nesting sinValue?_nesting hw)
  · obtain ⟨w, hw, rfl⟩ := Option.map_eq_some_iff.1 h
    exact reciprocal_nesting (atAngle?_nesting cosValue?_nesting hw)
  · obtain ⟨w, hw, rfl⟩ := Option.map_eq_some_iff.1 h
    split
    · exact Nat.zero_le 2
    · exact reciprocal_nesting (atAngle?_nesting tanValue?_nesting hw)
  · simp at h

theorem valueAtInfinity?_nesting {f : Func} {sign : Int} {v : Expr}
    (h : valueAtInfinity? f sign = some v) : termNesting v ≤ 1 := by
  have hsigned {w : Expr} (hw : termNesting w ≤ 1) : termNesting (if sign < 0 then -w else w) ≤ 1 := by
    split
    · exact neg_nesting hw (Nat.le_refl 1)
    · exact hw
  unfold valueAtInfinity? at h
  dsimp only at h
  split at h
  all_goals simp only [Option.some.injEq, reduceCtorEq] at h
  all_goals subst h
  · exact hsigned (mul_pi_nesting _)
  · exact hsigned (Nat.zero_le 1)
  · exact hsigned (Nat.zero_le 1)
  · exact hsigned (Nat.le_refl 1)
  · exact Nat.le_refl 1

theorem valueAtRational?_nesting {f : Func} {q : Rat} {v : Expr}
    (h : valueAtRational? f q = some v) : termNesting v ≤ 1 := by
  unfold valueAtRational? at h
  split at h
  all_goals simp only [Option.some.injEq, reduceCtorEq] at h
  all_goals subst h
  all_goals first | exact mul_pi_nesting _ | exact Nat.zero_le 1 | exact Nat.le_refl 1

theorem inverseValue?_nesting {f : Func} {x v : Expr} (h : inverseValue? f x = some v) :
    termNesting v ≤ 1 := by
  unfold inverseValue? at h
  split at h
  · exact valueAtInfinity?_nesting h
  · obtain ⟨q, -, hq⟩ := Option.bind_eq_some_iff.1 h
    exact valueAtRational?_nesting hq

theorem specialValue?_nesting {f : Func} {x v : Expr} (h : specialValue? f x = some v) :
    termNesting v ≤ 2 := by
  unfold specialValue? at h
  split at h
  · exact circularValue?_nesting h
  · exact Nat.le_succ_of_le (inverseValue?_nesting h)

theorem logPositive_nesting (q : Rat) : termNesting (logPositive q) ≤ 2 := by
  unfold logPositive
  split
  · exact Nat.zero_le 2
  · split
    · exact neg_nesting (Nat.le_refl 2) (Nat.le_succ 1)
    · exact Nat.le_refl 2

theorem logarithm_nesting {x : Expr} (h : termNesting x ≤ k) (hk : 1 ≤ k) :
    termNesting (logarithm x) ≤ k + 2 := by
  cases x with
  | rat q =>
    simp only [logarithm]
    split
    · exact Nat.le_trans hk (Nat.le_add_right k 2)
    · split
      · have hsum : sumNesting (sum [logPositive (-q), product [i, pi]]) ≤ 2 := by
          refine sum_nesting (fun t ht => ?_) (Nat.le_succ 1)
          refine Nat.le_trans (sumNesting_le_termNesting t) ?_
          simp only [List.mem_cons, List.not_mem_nil, or_false] at ht
          rcases ht with rfl | rfl
          · exact logPositive_nesting (-q)
          · exact product_nesting (fun f hf => by simp at hf; rcases hf with rfl | rfl <;> decide)
              (Nat.le_succ 1)
        have := termNesting_le_sumNesting (sum [logPositive (-q), product [i, pi]])
        omega
      · exact Nat.le_trans (logPositive_nesting _) (Nat.le_add_left 2 k)
  | e => exact Nat.zero_le _
  | infinity => exact Nat.le_add_left 1 (k + 1)
  | pow b u =>
    have := sumNesting_le_termNesting (pow b u)
    have hkept : termNesting (fn .log (pow b u)) ≤ k + 2 := by
      show sumNesting (pow b u) + 2 ≤ k + 2
      omega
    cases b with
    | e =>
      have hexponent := ((nesting_pow_le e u).1 h).2.2
      have := termNesting_le_sumNesting u
      show termNesting u ≤ k + 2
      omega
    | _ => exact hkept
  | pi | i | undefined | var | add | mul | fn =>
    exact Nat.add_le_add_right (Nat.le_trans (sumNesting_le_termNesting _) h) 2

theorem undone?_nesting {f : Func} {x u : Expr} (h : undone? f x = some u) :
    termNesting u ≤ sumNesting x := by
  cases x with
  | fn g y =>
    simp only [undone?] at h
    split at h
    · obtain rfl := Option.some.inj h
      have := termNesting_le_sumNesting y
      show termNesting y ≤ sumNesting y + 2
      omega
    · simp at h
  | _ => simp [undone?] at h

theorem applyWithin_nesting (n : Nat) (f : Func) {x : Expr} (h : termNesting x ≤ k) (hk : 1 ≤ k) :
    termNesting (applyWithin n f x) ≤ k + 2 := by
  have hplain {x : Expr} (h : termNesting x ≤ k) : termNesting (fn f x) ≤ k + 2 := by
    have := sumNesting_le_termNesting x
    show sumNesting x + 2 ≤ k + 2
    omega
  induction n generalizing x with
  | zero =>
    unfold applyWithin
    split
    · exact Nat.le_add_left 1 (k + 1)
    · exact hplain h
  | succ n ih =>
    have hneg := ih (neg_nesting h hk)
    have hplain : termNesting ((undone? f x).getD (fn f x)) ≤ k + 2 := by
      cases hu : undone? f x with
      | none => exact hplain h
      | some u =>
        have := undone?_nesting hu
        have := sumNesting_le_termNesting x
        show termNesting u ≤ k + 2
        omega
    unfold applyWithin
    split
    · exact Nat.le_add_left 1 (k + 1)
    · split
      · exact logarithm_nesting h hk
      · split
        · rename_i v hv
          exact Nat.le_trans (specialValue?_nesting hv) (Nat.le_add_left 2 k)
        · dsimp only
          split
          · split
            · exact hneg
            · exact neg_nesting hneg (Nat.le_add_left 1 (k + 1))
            · exact hplain
          · exact hplain

/-- A function application nests at most two levels deeper than its argument. -/
theorem apply_nesting (f : Func) {x : Expr} (h : termNesting x ≤ k) (hk : 1 ≤ k) :
    termNesting (apply f x) ≤ k + 2 :=
  applyWithin_nesting _ f h hk

end SymbolicSolver.Expr
