import Mathlib.Algebra.Order.BigOperators.Group.List
import SymbolicSolver.Proofs.Canonical.PowerCases
import SymbolicSolver.Proofs.Canonical.RationalPower

/-!
# Weight

Canonical operations never make more of the bases that they are given: they add up exponents, multiply them or spread
them over the factors of a base. The weight of a tree counts its bases, each as often as its exponent is heavy, and the
coefficients of a tree count for nothing. The weight of a sum or a product is at most that of the operands together,
and the weight of a power at most that of the power as it stands. Where a product collects two powers of one base, the
weight goes down by what the base counts; this is what brings the rounds of the product to an end.

A root splits into those of the numerator and the denominator, and that of a negative rational has a power of `i` in
front, so a rational counts as a base, though it does not as a factor. What a tree counts more as a base than as a
factor is its excess.
-/

namespace SymbolicSolver.Expr

variable {b x : Expr} {ts fs : List Expr}

/-! ## Weight and excess -/

/-- How many powers may stand for a power of the rational: one for its numerator, one for its denominator and one for
its sign. -/
def unitWeight (q : Rat) : Nat :=
  (if q.num.natAbs = 1 then 0 else 1) + (if q.den = 1 then 0 else 1) + (if q < 0 then 1 else 0)

mutual

/-- What a tree counts more as a base than as a factor. -/
def excess : Expr → Nat
  | rat q => unitWeight q
  | infinity => 1
  | pow _ _ => 1
  | mul fs => excessAll fs
  | _ => 0

/-- The excess of the trees of a list. -/
def excessAll : List Expr → Nat
  | [] => 0
  | f :: fs => excess f + excessAll fs

end

mutual

/-- The number of bases, each times the weight of its exponent. -/
def weight : Expr → Nat
  | rat _ => 0
  | infinity => 0
  | undefined => 0
  | add ts => weightAll ts
  | mul fs => weightAll fs
  | pow b x => (weight b + excess b) * (1 + weight x)
  | fn _ x => weight x + excess x + 1
  | _ => 1

/-- The weight of the trees of a list. -/
def weightAll : List Expr → Nat
  | [] => 0
  | x :: xs => weight x + weightAll xs

end

/-- What a tree counts as a base. -/
def baseWeight (b : Expr) : Nat := weight b + excess b

/-- What a power counts as it stands. -/
def powerWeight (b x : Expr) : Nat := baseWeight b * (1 + weight x)

theorem weightAll_eq (xs : List Expr) : weightAll xs = (xs.map weight).sum := by
  induction xs with
  | nil => rfl
  | cons x xs ih => rw [weightAll, ih, List.map_cons, List.sum_cons]

theorem excessAll_eq (xs : List Expr) : excessAll xs = (xs.map excess).sum := by
  induction xs with
  | nil => rfl
  | cons x xs ih => rw [excessAll, ih, List.map_cons, List.sum_cons]

@[simp] theorem weight_rat (q : Rat) : weight (rat q) = 0 := rfl

@[simp] theorem weight_infinity : weight infinity = 0 := rfl

@[simp] theorem weight_undefined : weight undefined = 0 := rfl

@[simp] theorem weight_i : weight i = 1 := rfl

@[simp] theorem weight_add (ts : List Expr) : weight (add ts) = (ts.map weight).sum := weightAll_eq ts

@[simp] theorem weight_mul (fs : List Expr) : weight (mul fs) = (fs.map weight).sum := weightAll_eq fs

theorem weight_pow (b x : Expr) : weight (pow b x) = powerWeight b x := rfl

theorem weight_fn (f : Func) (x : Expr) : weight (fn f x) = baseWeight x + 1 := rfl

theorem weight_le_baseWeight (x : Expr) : weight x ≤ baseWeight x := Nat.le_add_right _ _

@[simp] theorem baseWeight_rat (q : Rat) : baseWeight (rat q) = unitWeight q := Nat.zero_add _

theorem baseWeight_pow (b x : Expr) : baseWeight (pow b x) = powerWeight b x + 1 := rfl

theorem baseWeight_mul (fs : List Expr) : baseWeight (mul fs) = (fs.map baseWeight).sum := by
  rw [baseWeight, weight_mul, excess, excessAll_eq, ← List.sum_map_add]
  rfl

@[simp] theorem powerWeight_rat (b : Expr) (q : Rat) : powerWeight b (rat q) = baseWeight b := Nat.mul_one _

theorem powerWeight_exp (x : Expr) : powerWeight e x = 1 + weight x := Nat.one_mul _

theorem weight_ofFactors (fs : List Expr) : weight (ofFactors fs) = (fs.map weight).sum := by
  unfold ofFactors
  split
  · simp
  · exact weight_mul _

theorem baseWeight_ofFactors (fs : List Expr) : baseWeight (ofFactors fs) = (fs.map baseWeight).sum := by
  unfold ofFactors
  split
  · simp
  · exact baseWeight_mul _

theorem weight_expr (l : Extended) : weight l.expr = 0 := by
  cases l <;> simp [Extended.expr, negInfinity]

theorem powerWeight_scaled (c : Rat) (fs : List Expr) (x : Expr) :
    powerWeight (mul (rat c :: fs)) x = powerWeight (rat c) x + powerWeight (ofFactors fs) x := by
  rw [powerWeight, powerWeight, powerWeight, baseWeight_mul, baseWeight_ofFactors, List.map_cons, List.sum_cons,
    Nat.add_mul]

theorem powerWeight_pow_ge (hb : 0 < baseWeight b) (y x : Expr) :
    weight y + weight x + 2 ≤ powerWeight (pow b y) x := by
  calc weight y + weight x + 2 ≤ (1 * (1 + weight y) + 1) * (1 + weight x) := by
        have hcross : 0 ≤ weight y * weight x := Nat.zero_le _
        linarith [show (1 * (1 + weight y) + 1) * (1 + weight x) =
          weight y + weight x + 2 + (weight y * weight x + weight x) by ring, Nat.zero_le (weight x)]
    _ ≤ (baseWeight b * (1 + weight y) + 1) * (1 + weight x) :=
        Nat.mul_le_mul_right _ (Nat.add_le_add_right (Nat.mul_le_mul_right _ hb) 1)
    _ = powerWeight (pow b y) x := by rw [powerWeight, baseWeight_pow, powerWeight]

/-- A factor counts as the power that it is collected as. -/
theorem powerWeight_asBase {f : Expr} (hr : f.rat? = none) (hinf : f ≠ infinity) (hp : f.isProduct = false) :
    powerWeight (asBase f).1 (asBase f).2 = weight f := by
  cases f with
  | rat q => cases hr
  | infinity => exact absurd rfl hinf
  | mul fs => cases hp
  | pow b x => rfl
  | pi | e | i | undefined | var | add | fn => exact powerWeight_rat _ 1

/-! ## Sums -/

theorem weight_splitCoeff (t : Expr) : weight t.splitCoeff.2 = weight t := by
  unfold splitCoeff
  split
  · rfl
  · rw [weight_ofFactors]
    simp
  · rfl

theorem weight_withCoeff (c : Rat) (x : Expr) : weight (withCoeff c x) = weight x := by
  unfold withCoeff
  split
  · rename_i hone
    cases x with
    | rat q => rfl
    | _ => cases hone
  · split
    · rfl
    · split <;> simp

theorem weight_flattenTerms (ts : List Expr) : ((flattenTerms ts).map weight).sum = (ts.map weight).sum := by
  fun_induction flattenTerms ts with
  | case1 => rfl
  | case2 ys xs ihy ihx => simp [ihy, ihx]
  | case3 x xs _ ih => simp [ih]

theorem weight_collectTerm (x : Expr) (c : Rat) (gs : List (Expr × Rat)) :
    ((collectTerm x c gs).map fun g => weight g.1).sum ≤ (gs.map fun g => weight g.1).sum + weight x := by
  induction gs with
  | nil => simp [collectTerm]
  | cons g gs ih =>
    obtain ⟨y, d⟩ := g
    rw [collectTerm]
    split
    · simp
    · simp only [List.map_cons, List.sum_cons]
      omega

theorem weight_insertAll (ts : List Expr) (g : TermGroups) :
    ((ts.foldl TermGroups.insert g).groups.map fun p => weight p.1).sum ≤
      (g.groups.map fun p => weight p.1).sum + (ts.map weight).sum := by
  induction ts generalizing g with
  | nil => simp
  | cons t ts ih =>
    have hinsert : ((g.insert t).groups.map fun p => weight p.1).sum ≤
        (g.groups.map fun p => weight p.1).sum + weight t := by
      unfold TermGroups.insert
      split
      · exact Nat.le_add_right _ _
      · split
        · split <;> exact Nat.le_add_right _ _
        · exact (weight_collectTerm _ _ _).trans_eq (by rw [weight_splitCoeff])
    have hrest := ih (g.insert t)
    simp only [List.foldl_cons, List.map_cons, List.sum_cons]
    omega

theorem weight_keptTerms (gs : List (Expr × Rat)) :
    ((keptTerms gs).map weight).sum ≤ (gs.map fun g => weight g.1).sum := by
  induction gs with
  | nil => simp [keptTerms]
  | cons g gs ih =>
    rw [keptTerms_cons, List.map_cons, List.sum_cons]
    split
    · omega
    · have hterm := weight_withCoeff g.2 g.1
      rw [List.map_cons, List.sum_cons]
      omega

theorem weight_ofTerms (ts : List Expr) : weight (ofTerms ts) = (ts.map weight).sum := by
  unfold ofTerms
  split
  · rfl
  · simp
  · rw [weight_add]
    exact ((List.mergeSort_perm ts _).map weight).sum_eq

/-- A sum is no heavier than its terms. -/
theorem weight_sum (ts : List Expr) : weight (sum ts) ≤ (ts.map weight).sum := by
  have hgroups := weight_insertAll (flattenTerms ts) .empty
  rw [weight_flattenTerms] at hgroups
  have hempty : (TermGroups.empty.groups.map fun p => weight p.1).sum = 0 := rfl
  simp only [sum]
  generalize (flattenTerms ts).foldl TermGroups.insert TermGroups.empty = parts at hgroups ⊢
  have hkept := weight_keptTerms parts.groups
  rw [keptTerms] at hkept
  have hconcat (y : Expr) (hy : weight y = 0) :
      weight (ofTerms (((parts.groups.filter fun g => g.2 ≠ 0).map fun g => withCoeff g.2 g.1) ++ [y])) ≤
        (ts.map weight).sum := by
    rw [weight_ofTerms, List.map_append, List.sum_append, List.map_singleton, List.sum_singleton, hy]
    omega
  have hinf : weight (if parts.hasPosInfinity then infinity else negInfinity) = 0 := by
    split
    · rfl
    · exact weight_expr .negInf
  split
  · exact Nat.zero_le _
  · split
    · exact Nat.zero_le _
    · split
      · split
        · exact hinf ▸ Nat.zero_le _
        · exact hconcat _ hinf
      · split
        · exact hconcat _ rfl
        · rw [weight_ofTerms]
          omega

/-! ## Collected bases -/

theorem weight_flattenFactors (fs : List Expr) : ((flattenFactors fs).map weight).sum = (fs.map weight).sum := by
  fun_induction flattenFactors fs with
  | case1 => rfl
  | case2 ys xs ihy ihx => simp [ihy, ihx]
  | case3 x xs _ ih => simp [ih]

theorem weight_plainFactors (fs : List Expr) : ((plainFactors fs).map weight).sum = (fs.map weight).sum := by
  induction fs with
  | nil => rfl
  | cons f fs ih =>
    rw [plainFactors, List.filter_cons, ← plainFactors]
    split
    · simp [ih]
    · rename_i hnot
      have hzero : weight f = 0 := by
        cases f with
        | rat q => rfl
        | infinity => rfl
        | _ => simp [rat?] at hnot
      rw [ih, List.map_cons, List.sum_cons, hzero, Nat.zero_add]

/-- The weight of collected bases, each as the power that it stands for. -/
def groupsWeight (gs : List (Expr × Expr)) : Nat := (gs.map fun g => powerWeight g.1 g.2).sum

theorem powerWeight_sum (b x y : Expr) :
    powerWeight b (sum [y, x]) + baseWeight b ≤ powerWeight b y + powerWeight b x := by
  have hsum := weight_sum [y, x]
  simp only [List.map_cons, List.map_nil, List.sum_cons, List.sum_nil, Nat.add_zero] at hsum
  calc powerWeight b (sum [y, x]) + baseWeight b
      ≤ baseWeight b * (1 + (weight y + weight x)) + baseWeight b := by
        exact Nat.add_le_add_right (Nat.mul_le_mul_left _ (Nat.add_le_add_left hsum 1)) _
    _ = powerWeight b y + powerWeight b x := by
        unfold powerWeight
        ring

/-- A base that was collected before takes the exponent in, which saves its weight. -/
theorem groupsWeight_collectBase {gs : List (Expr × Expr)} (h : b ∈ gs.map Prod.fst) :
    groupsWeight (collectBase b x gs) + baseWeight b ≤ groupsWeight gs + powerWeight b x := by
  induction gs with
  | nil => simp at h
  | cons g gs ih =>
    obtain ⟨c, y⟩ := g
    rw [collectBase]
    split
    · rename_i hc
      subst hc
      have hsum := powerWeight_sum c x y
      simp only [groupsWeight, List.map_cons, List.sum_cons]
      omega
    · rename_i hne
      have hmem : b ∈ gs.map Prod.fst := by
        rcases List.mem_cons.1 h with heq | hmem
        · exact absurd heq.symm hne
        · exact hmem
      have hrest := ih hmem
      simp only [groupsWeight, List.map_cons, List.sum_cons] at hrest ⊢
      omega

theorem mem_or_eq_of_mem_collectBase {gs : List (Expr × Expr)} {g : Expr × Expr} (h : g ∈ collectBase b x gs) :
    g ∈ gs ∨ g.1 = b := by
  induction gs with
  | nil => exact .inr (by rw [List.mem_singleton.1 h])
  | cons g' gs ih =>
    obtain ⟨c, y⟩ := g'
    rw [collectBase] at h
    split at h
    · rename_i hc
      rcases List.mem_cons.1 h with rfl | h
      · exact .inr hc
      · exact .inl (List.mem_cons_of_mem _ h)
    · rcases List.mem_cons.1 h with rfl | h
      · exact .inl List.mem_cons_self
      · exact (ih h).imp_left (List.mem_cons_of_mem _)

/-- Bases collected from factors are no heavier than these. A base is that of one factor, or it has been collected from
several, and then its weight has been saved; if there is none of the latter, the factors are as they were. -/
structure Gathered (fs : List Expr) (gs : List (Expr × Expr)) : Prop where
  weight_le : groupsWeight gs ≤ (fs.map weight).sum
  base : ∀ g ∈ gs, ∃ f ∈ fs, (asBase f).1 = g.1 ∧
    (asBase f = g ∨ groupsWeight gs + baseWeight g.1 ≤ (fs.map weight).sum)
  all_single_or_saved : gs = fs.map asBase ∨ ∃ f ∈ fs, groupsWeight gs + baseWeight (asBase f).1 ≤ (fs.map weight).sum

theorem Gathered.collectBase {gs : List (Expr × Expr)} (h : Gathered fs gs) {f : Expr}
    (hf : powerWeight (asBase f).1 (asBase f).2 = weight f) :
    Gathered (fs ++ [f]) (collectBase (asBase f).1 (asBase f).2 gs) := by
  have hweight : ((fs ++ [f]).map weight).sum = (fs.map weight).sum + powerWeight (asBase f).1 (asBase f).2 := by
    simp [hf]
  have hle := h.weight_le
  have hmem : f ∈ fs ++ [f] := List.mem_append_right _ (List.mem_singleton_self f)
  by_cases hold : (asBase f).1 ∈ gs.map Prod.fst
  · have hsaved := groupsWeight_collectBase (x := (asBase f).2) hold
    refine ⟨by omega, fun g hg => ?_, .inr ⟨f, hmem, by omega⟩⟩
    rcases mem_or_eq_of_mem_collectBase hg with hg | heq
    · obtain ⟨f', hf', hbase, hcase⟩ := h.base g hg
      exact ⟨f', List.mem_append_left _ hf', hbase, hcase.imp_right fun _ => by omega⟩
    · exact ⟨f, hmem, heq.symm, .inr (by rw [heq]; omega)⟩
  · rw [collectBase_of_notMem hold]
    have hconcat : groupsWeight (gs ++ [((asBase f).1, (asBase f).2)]) =
        groupsWeight gs + powerWeight (asBase f).1 (asBase f).2 := by
      simp [groupsWeight]
    refine ⟨by omega, fun g hg => ?_, ?_⟩
    · rcases List.mem_append.1 hg with hg | hnew
      · obtain ⟨f', hf', hbase, hcase⟩ := h.base g hg
        exact ⟨f', List.mem_append_left _ hf', hbase, hcase.imp_right fun _ => by omega⟩
      · obtain rfl := List.mem_singleton.1 hnew
        exact ⟨f, hmem, rfl, .inl rfl⟩
    · rcases h.all_single_or_saved with heq | ⟨f', hf', hbefore⟩
      · exact .inl (by rw [heq, List.map_append, List.map_singleton])
      · exact .inr ⟨f', List.mem_append_left _ hf', by omega⟩

/-- What a product collects. -/
theorem gathered_collectBases (h : ∀ f ∈ fs, f.isProduct = false) :
    Gathered (plainFactors fs) (collectBases fs).others := by
  have hweight : ∀ f ∈ plainFactors fs, powerWeight (asBase f).1 (asBase f).2 = weight f := by
    intro f hf
    obtain ⟨hf, hr, hinf⟩ := mem_plainFactors.1 hf
    exact powerWeight_asBase hr hinf (h f hf)
  rw [collectBases_parts]
  generalize plainFactors fs = ps at hweight ⊢
  suffices hfold : ∀ (qs ps : List Expr) (gs : List (Expr × Expr)), Gathered ps gs →
      (∀ f ∈ qs, powerWeight (asBase f).1 (asBase f).2 = weight f) →
      Gathered (ps ++ qs) (qs.foldl (fun gs f => collectBase (asBase f).1 (asBase f).2 gs) gs) from
    hfold ps [] [] ⟨Nat.zero_le _, by simp, .inl rfl⟩ hweight
  intro qs
  induction qs with
  | nil => exact fun ps gs hgs _ => by simpa using hgs
  | cons f qs ih =>
    intro ps gs hgs hqs
    obtain ⟨hf, hqs⟩ := List.forall_mem_cons.1 hqs
    have hrest := ih (ps ++ [f]) _ (hgs.collectBase hf) hqs
    rwa [List.append_assoc] at hrest

/-! ## Products -/

theorem weight_sortFactors (fs : List Expr) : ((sortFactors fs).map weight).sum = (fs.map weight).sum :=
  ((List.mergeSort_perm fs _).map weight).sum_eq

theorem weight_assemble (c : Rat) (fs : List Expr) (inf : Bool) :
    weight (assemble c fs inf) = (fs.map weight).sum := by
  have hall : ((sortFactors fs ++ if inf then [infinity] else []).map weight).sum = (fs.map weight).sum := by
    cases inf <;> simp [weight_sortFactors]
  simp only [assemble]
  generalize sortFactors fs ++ (if inf then [infinity] else []) = gs at hall ⊢
  rw [weight_ofFactors]
  split
  · rw [List.map_cons, List.sum_cons, hall, weight_rat, Nat.zero_add]
  · exact hall

theorem weight_infiniteProduct (c : Rat) (fs : List Expr) : weight (infiniteProduct c fs) ≤ (fs.map weight).sum := by
  simp only [infiniteProduct]
  generalize (if c < 0 then (-1 : Int) else 1) = unit
  generalize (if fs.all isConstant then (mul fs).constantSign? else none) = restSign
  cases restSign with
  | none => exact (weight_assemble _ _ _).le
  | some s =>
    have hnegInfinity : weight negInfinity = 0 := weight_expr .negInf
    dsimp only
    split
    · exact Nat.zero_le _
    · split
      · exact Nat.zero_le _
      · rw [hnegInfinity]
        exact Nat.zero_le _

theorem weight_plainProduct (fs : List Expr) : weight (plainProduct fs) ≤ (fs.map weight).sum := by
  simp only [plainProduct, collectRebuilt_parts, weight_assemble, weight_plainFactors, weight_flattenFactors]
  exact le_rfl

theorem weight_plainPower (b x : Expr) : weight (plainPower b x) ≤ powerWeight b x := by
  unfold plainPower
  split_ifs
  · exact Nat.zero_le _
  · exact Nat.zero_le _
  · exact (weight_le_baseWeight b).trans (Nat.le_mul_of_pos_right _ (by omega))
  · exact Nat.zero_le _
  · exact Nat.zero_le _
  · exact le_rfl

section Step

variable {power : Expr → Expr → Expr} {product : List Expr → Expr}
  (hpow : ∀ b x, weight (power b x) ≤ powerWeight b x) (hprod : ∀ fs, weight (product fs) ≤ (fs.map weight).sum)

include hprod

theorem weight_multiplyOut (parts : FactorGroups Expr) :
    weight (multiplyOut product parts) ≤ (parts.others.map weight).sum := by
  unfold multiplyOut
  split
  · split <;> exact Nat.zero_le _
  split
  · refine (hprod _).trans_eq ?_
    cases parts.hasInfinity <;> simp
  split
  · exact weight_infiniteProduct _ _
  split
  · rename_i ts hts
    rw [hts]
    split
    · simp
    · calc weight (sum (ts.map fun t => product [rat parts.coeff, t]))
          ≤ (ts.map fun t => weight (product [rat parts.coeff, t])).sum := by
            simpa [Function.comp_def] using weight_sum (ts.map fun t => product [rat parts.coeff, t])
        _ ≤ (ts.map weight).sum := List.sum_le_sum fun t _ => by simpa using hprod [rat parts.coeff, t]
        _ = ([add ts].map weight).sum := by simp
  · exact (weight_assemble _ _ _).le

include hpow

/-- A product is no heavier than the bases that it has collected. -/
theorem weight_productStep_collected (fs : List Expr) :
    weight (productStep power product fs) ≤ groupsWeight (collectBases (flattenFactors fs)).others := by
  simp only [productStep]
  split
  · exact Nat.zero_le _
  split
  · exact Nat.zero_le _
  refine (weight_multiplyOut hprod _).trans ?_
  rw [collectRebuilt_parts, weight_plainFactors, List.map_map]
  exact List.sum_le_sum fun g _ => hpow g.1 g.2

theorem weight_productStep (fs : List Expr) : weight (productStep power product fs) ≤ (fs.map weight).sum := by
  have hflat : ∀ f ∈ flattenFactors fs, f.isProduct = false := fun f hf =>
    (flattenFactors_all (Q := fun _ => True) (fun _ _ _ => trivial) (fun _ _ => trivial) f hf).2
  have hgathered := (gathered_collectBases hflat).weight_le
  rw [weight_plainFactors, weight_flattenFactors] at hgathered
  exact (weight_productStep_collected hpow hprod fs).trans hgathered

end Step

/-! ## Powers -/

theorem weight_iPower (n : Int) : weight (iPower n) ≤ 1 := by
  unfold iPower
  split
  · exact Nat.zero_le _
  · exact le_rfl
  · exact Nat.zero_le _
  · simp

theorem extractPower_nonneg (q n : Nat) : 0 ≤ (extractPower q n).2 := by
  unfold extractPower
  split
  · exact Int.natCast_nonneg n
  · exact Int.natCast_nonneg _

/-- The root of a natural is one power at most. -/
theorem weight_radical (n p q : Nat) :
    ((radical n p q).2.map weight).sum ≤ if n = 1 then 0 else 1 := by
  have hroot (k : Int) (hk : 0 ≤ k) (r : Rat) : weight (pow (rat k) (rat r)) ≤ 1 := by
    have hneg : ¬ (k : Rat) < 0 := by exact_mod_cast hk.not_gt
    rw [weight_pow, powerWeight_rat, baseWeight_rat, unitWeight, if_neg hneg, Rat.den_intCast, if_pos rfl]
    split <;> omega
  unfold radical
  split
  · simp
  · split
    · simp
    · split
      · simpa using hroot _ (extractPower_nonneg q n) _
      · simpa using hroot n (Int.natCast_nonneg n) _

/-- The roots of numerator and denominator. -/
theorem weight_positiveRoot {p : Rat} (hp : 0 < p) (q : Rat) : weight (positiveRoot p q) ≤ unitWeight p := by
  cases hfits : powerFits p q.floor with
  | false =>
    have hkept : positiveRoot p q = pow (rat p) (rat q) := by simp [positiveRoot, hfits]
    rw [hkept, weight_pow, powerWeight_rat, baseWeight_rat]
  | true =>
    have hweight (c : Rat) (fs : List Expr) : weight (times c fs) = (fs.map weight).sum := by
      rw [times, weight_ofFactors]
      split <;> simp
    have hform := positiveRoot_eq_times hfits
    dsimp only at hform
    have htop := weight_radical p.num.natAbs (q - q.floor).num.natAbs q.den
    have hbottom := weight_radical p.den (q.den - (q - q.floor).num.natAbs) q.den
    rw [hform, hweight, weight_sortFactors, List.map_append, List.sum_append, unitWeight,
      if_neg hp.not_gt]
    omega

theorem unitWeight_neg {p : Rat} (hp : p < 0) : unitWeight p = unitWeight (-p) + 1 := by
  have hpos : ¬ -p < 0 := by linarith
  rw [unitWeight, unitWeight, Rat.num_neg_eq_neg_num, Rat.neg_den, Int.natAbs_neg, if_pos hp, if_neg hpos]

section Step

variable {power : Expr → Expr → Expr} {product : List Expr → Expr}
  (hpow : ∀ b x, weight (power b x) ≤ powerWeight b x) (hprod : ∀ fs, weight (product fs) ≤ (fs.map weight).sum)

include hprod

/-- Exponents that multiply. -/
theorem powerWeight_nested (b y x : Expr) :
    powerWeight b (product [y, x]) + 1 + weight x ≤ powerWeight (pow b y) x := by
  have hyx : weight (product [y, x]) ≤ weight y + weight x := by simpa using hprod [y, x]
  calc powerWeight b (product [y, x]) + 1 + weight x
      ≤ baseWeight b * (1 + (weight y + weight x)) + 1 + weight x := by
        have := Nat.mul_le_mul_left (baseWeight b) (Nat.add_le_add_left hyx 1)
        unfold powerWeight
        omega
    _ ≤ (baseWeight b * (1 + weight y) + 1) * (1 + weight x) := by
        have hcross : 0 ≤ baseWeight b * (weight y * weight x) := Nat.zero_le _
        linarith [show (baseWeight b * (1 + weight y) + 1) * (1 + weight x) =
          baseWeight b * (1 + (weight y + weight x)) + baseWeight b * (weight y * weight x) + 1 + weight x by ring]
    _ = powerWeight (pow b y) x := by rw [powerWeight, baseWeight_pow, powerWeight]

include hpow

/-- A power is no heavier than it would be as it stands. -/
theorem weight_powerStep (b x : Expr) : weight (powerStep power product b x) ≤ powerWeight b x := by
  cases powerStep_cases b x with
  | undefined h => exact (h power product) ▸ Nat.zero_le _
  | value l h => exact (h power product) ▸ (weight_expr l ▸ Nat.zero_le _)
  | stands h => rw [h power product, weight_pow]
  | one h =>
    rw [h power product, powerWeight_rat]
    exact weight_le_baseWeight b
  | unit h =>
    rw [h power product, powerWeight_rat]
    exact weight_iPower _
  | root hp hp1 hq hindex hfits h =>
    rw [h power product, powerWeight_rat, baseWeight_rat]
    exact weight_positiveRoot hp _
  | @negativeRoot p q hp hq h =>
    have hi := weight_iPower q.num
    have hroot := weight_positiveRoot (neg_pos.2 hp) q
    have hproduct := hprod [iPower q.num, positiveRoot (-p) q]
    simp only [List.map_cons, List.map_nil, List.sum_cons, List.sum_nil, Nat.add_zero] at hproduct
    rw [h power product, powerWeight_rat, baseWeight_rat, unitWeight_neg hp]
    omega
  | @logarithm u h =>
    rw [h power product, powerWeight_exp, weight_fn]
    exact (weight_le_baseWeight u).trans (by omega)
  | @scaledLogarithm c u h =>
    rw [h power product, powerWeight_exp, weight_mul]
    refine (hpow u (rat c)).trans ?_
    simp only [powerWeight_rat, List.map_cons, List.map_nil, List.sum_cons, List.sum_nil, weight_rat, weight_fn]
    omega
  | @nested b y x h =>
    have hexponents := powerWeight_nested hprod b y x
    rw [h power product]
    exact (hpow _ _).trans (by omega)
  | @spread fs q hq h =>
    rw [h power product, powerWeight_rat, baseWeight_mul]
    refine (hprod _).trans ?_
    rw [List.map_map]
    exact List.sum_le_sum fun f _ => by simpa using hpow f (rat q)
  | @scaled c fs x hc h =>
    have hcoeff := hpow (rat c) x
    have hproduct := hprod [power (rat c) x, pow (ofFactors fs) x]
    simp only [List.map_cons, List.map_nil, List.sum_cons, List.sum_nil, Nat.add_zero, weight_pow] at hproduct
    rw [h power product, powerWeight_scaled]
    omega

end Step

/-! ## All rounds -/

theorem within_weight (n : Nat) : (∀ fs, weight (productWithin n fs) ≤ (fs.map weight).sum) ∧
    ∀ b x, weight (powerWithin n b x) ≤ powerWeight b x := by
  induction n with
  | zero => exact ⟨weight_productStep weight_plainPower weight_plainProduct, weight_plainPower⟩
  | succ n ih =>
    obtain ⟨hprod, hpow⟩ := ih
    exact ⟨weight_productStep hpow hprod, weight_powerStep hpow hprod⟩

/-- A product is no heavier than its factors. -/
theorem weight_product (fs : List Expr) : weight (product fs) ≤ (fs.map weight).sum := (within_weight _).1 fs

/-- A power is no heavier than its base with the exponent. -/
theorem weight_power (b x : Expr) : weight (power b x) ≤ powerWeight b x := (within_weight _).2 b x

/-! ## Weight and size -/

mutual

theorem baseWeight_lt : ∀ x : Expr, baseWeight x < 4 ^ x.size
  | rat q => by
    have hunit : unitWeight q ≤ 3 := by
      unfold unitWeight
      split <;> split <;> split <;> omega
    exact (baseWeight_rat q).trans_lt (Nat.lt_of_le_of_lt hunit (by simp [size]))
  | pi | e | i | infinity | undefined => by decide
  | var _ => Nat.lt_of_sub_pos (by decide : 0 < 4 - 1)
  | add ts => by
    have hall := weightAll_lt ts
    have hbase : baseWeight (add ts) = (ts.map weight).sum := weight_add ts
    have hle : (ts.map weight).sum ≤ (ts.map baseWeight).sum := List.sum_le_sum fun t _ => weight_le_baseWeight t
    rw [hbase, size, pow_succ]
    omega
  | mul fs => by
    have hall := weightAll_lt fs
    rw [baseWeight_mul, size, pow_succ]
    omega
  | pow b x => by
    have hb := baseWeight_lt b
    have hx : 1 + weight x ≤ 4 ^ x.size := by
      have hexponent := baseWeight_lt x
      have hle := weight_le_baseWeight x
      omega
    have hpower : powerWeight b x ≤ 4 ^ b.size * 4 ^ x.size := Nat.mul_le_mul hb.le hx
    rw [baseWeight_pow, size, pow_succ, pow_add]
    have hpos : 0 < 4 ^ b.size * 4 ^ x.size := by positivity
    omega
  | fn _ x => by
    have hx := baseWeight_lt x
    have hbase (f : Func) : baseWeight (fn f x) = baseWeight x + 1 := weight_fn f x
    rw [hbase, size, pow_succ]
    omega

theorem weightAll_lt : ∀ xs : List Expr, (xs.map baseWeight).sum < 4 ^ sizeAll xs
  | [] => by decide
  | x :: xs => by
    have hx := baseWeight_lt x
    have hxs := weightAll_lt xs
    have hproduct : 4 ^ x.size + 4 ^ sizeAll xs ≤ 4 ^ x.size * 4 ^ sizeAll xs + 1 := by
      have hone : 1 ≤ 4 ^ x.size := Nat.one_le_pow _ _ (by decide)
      have hones : 1 ≤ 4 ^ sizeAll xs := Nat.one_le_pow _ _ (by decide)
      nlinarith
    rw [List.map_cons, List.sum_cons, sizeAll, pow_add]
    omega

end

end SymbolicSolver.Expr
