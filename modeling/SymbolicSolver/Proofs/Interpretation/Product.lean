import SymbolicSolver.Proofs.Interpretation.Sum

/-!
# Products and powers keep values

The canonical product and the canonical power keep the values of products and powers in every algebra over the
rationals, for every number of rounds. Exponents are whole numbers, and halves of whole numbers above naturals whose
square roots have values; a product adds them up, and a power of a power multiplies them.
-/

namespace SymbolicSolver.Interpretation

open Expr

variable {A : Type*} [CommRing A] [Algebra ℚ A] {I : Interpretation A}

/-! ## Flattening -/

theorem keeps_flattenFactors (fs : List Expr) : I.Keeps (mul fs) (mul (flattenFactors fs)) := by
  fun_induction flattenFactors fs with
  | case1 => exact .refl I _
  | case2 ys xs ihy ihx => exact (Keeps.mul_flatten ys xs).trans (.mul_append ihy ihx)
  | case3 x xs _ ih => exact .mul_cons (.refl I x) ih

/-! ## Powers of one base -/

theorem Rooted.half {b : Expr} {q : ℚ} (_hb : I.Rooted b) (h : I.Defined (pow b (rat q))) : ∃ k : ℤ, q = k / 2 := by
  obtain ⟨n, rfl, -, -⟩ | ⟨-, k, rfl⟩ := h.pow_cases
  · exact ⟨2 * n, by push_cast; ring⟩
  · exact ⟨k, rfl⟩

theorem keeps_pow_one (f : Expr) : I.Keeps f (pow f Expr.one) := by
  intro h
  have hone : Expr.one = rat ((1 : ℤ) : ℚ) := by simp [Expr.one]
  rw [hone, defined_pow_int, eval_pow_int, intPow_one]
  exact ⟨⟨h, admits_one _⟩, rfl⟩

/-- Two powers of one base multiply to the power with the sum of the exponents. -/
theorem pow_mul_pow {b : Expr} {p q : ℚ} (hp : I.Defined (pow b (rat p))) (hq : I.Defined (pow b (rat q))) :
    I.Defined (pow b (rat (q + p))) ∧
      I.eval (pow b (rat (q + p))) = I.eval (pow b (rat p)) * I.eval (pow b (rat q)) := by
  by_cases hb : I.Rooted b
  · obtain ⟨u, -, hu⟩ := hb.halfPowers
    obtain ⟨k, rfl⟩ := hb.half hp
    obtain ⟨l, rfl⟩ := hb.half hq
    have hsum : (l / 2 + k / 2 : ℚ) = ((l + k : ℤ) : ℚ) / 2 := by
      push_cast
      ring
    rw [hsum, (hu _).2, (hu k).2, (hu l).2, zpow_add, Units.val_mul, mul_comm]
    exact ⟨(hu _).1, rfl⟩
  · obtain ⟨m, rfl, hbd, hm⟩ := hp.pow_cases.resolve_right fun h => hb h.1
    obtain ⟨n, rfl, -, hn⟩ := hq.pow_cases.resolve_right fun h => hb h.1
    rw [← Int.cast_add, defined_pow_int, eval_pow_int, eval_pow_int, eval_pow_int, hn.intPow_add hm, mul_comm]
    exact ⟨⟨hbd, hn.add hm⟩, rfl⟩

theorem keeps_pow_sum (b x y : Expr) (fs : List Expr) :
    I.Keeps (mul (pow b x :: pow b y :: fs)) (mul (pow b (sum [y, x]) :: fs)) := by
  intro h
  simp only [defined_mul_cons] at h
  obtain ⟨p, rfl⟩ := h.1.exponent
  obtain ⟨q, rfl⟩ := h.2.1.exponent
  obtain ⟨hd, hv⟩ := pow_mul_pow h.1 h.2.1
  rw [sum_rat_rat]
  exact ⟨⟨hd, h.2.2⟩, by rw [eval_mul_cons, eval_mul_cons, eval_mul_cons, hv, mul_assoc]⟩

/-- One more power among the collected ones. -/
theorem keeps_collectBase (b x : Expr) (gs : List (Expr × Expr)) :
    I.Keeps (mul (pow b x :: gs.map asPower)) (mul ((collectBase b x gs).map asPower)) := by
  induction gs with
  | nil => exact .refl I _
  | cons g gs ih =>
    obtain ⟨c, y⟩ := g
    simp only [collectBase]
    split
    · rename_i hc
      subst hc
      exact keeps_pow_sum c x y _
    · have hswap : I.Keeps (mul (pow b x :: pow c y :: gs.map asPower)) (mul (pow c y :: pow b x :: gs.map asPower)) :=
        .mul_perm (List.Perm.swap ..)
      exact hswap.trans (.mul_cons (.refl I _) ih)

/-! ## Collecting factors -/

/-- The coefficient goes to the front, and the rest takes the new factor in. -/
theorem keeps_insert {f : Expr} {c : ℚ} {xs ys : List Expr} (h : I.Keeps (mul (f :: xs)) (mul ys)) :
    I.Keeps (mul (f :: rat c :: xs)) (mul (rat c :: ys)) := by
  have hswap : I.Keeps (mul (f :: rat c :: xs)) (mul (rat c :: f :: xs)) := .mul_perm (List.Perm.swap ..)
  exact hswap.trans (.mul_cons (.refl I _) h)

theorem keeps_insertBase (g : FactorGroups (Expr × Expr)) {f : Expr} (hf : I.Defined f) :
    (g.insertBase f).hasInfinity = g.hasInfinity ∧
      I.Keeps (mul (f :: g.factors asPower)) (mul ((g.insertBase f).factors asPower)) := by
  cases f with
  | rat q =>
    refine ⟨rfl, ?_⟩
    have h := Keeps.mul_rat_rat (I := I) q g.coeff (g.others.map asPower)
    rwa [mul_comm q] at h
  | infinity => simp at hf
  | pow b x => exact ⟨rfl, keeps_insert (keeps_collectBase b x _)⟩
  | pi | e | i | undefined | var | add | mul | fn =>
    refine ⟨rfl, keeps_insert ?_⟩
    exact (Keeps.mul_cons (keeps_pow_one _) (.refl I _)).trans (keeps_collectBase _ Expr.one _)

theorem keeps_insertFactor (g : FactorGroups Expr) {f : Expr} (hf : I.Defined f) :
    (g.insertFactor f).hasInfinity = g.hasInfinity ∧
      I.Keeps (mul (f :: g.factors id)) (mul ((g.insertFactor f).factors id)) := by
  cases f with
  | rat q =>
    refine ⟨rfl, ?_⟩
    have h := Keeps.mul_rat_rat (I := I) q g.coeff (g.others.map id)
    rwa [mul_comm q] at h
  | infinity => simp at hf
  | pi | e | i | undefined | var | add | mul | fn | pow =>
    refine ⟨rfl, keeps_insert (.mul_perm ?_)⟩
    simp only [List.map_id, FactorGroups.insertFactor]
    exact (List.perm_append_singleton _ _).symm

/-- Inserting a list of factors, one after the other, by an operation that keeps the value. -/
theorem keeps_foldl {α : Type} {shown : α → Expr} {insert : FactorGroups α → Expr → FactorGroups α}
    (hi : ∀ (g : FactorGroups α) {f : Expr}, I.Defined f → (insert g f).hasInfinity = g.hasInfinity ∧
      I.Keeps (mul (f :: g.factors shown)) (mul ((insert g f).factors shown)))
    {fs : List Expr} (hfs : ∀ f ∈ fs, I.Defined f) (g : FactorGroups α) :
    (fs.foldl insert g).hasInfinity = g.hasInfinity ∧
      I.Keeps (mul (fs ++ g.factors shown)) (mul ((fs.foldl insert g).factors shown)) := by
  induction fs generalizing g with
  | nil => exact ⟨rfl, .refl I _⟩
  | cons f fs ih =>
    obtain ⟨hf, hfs⟩ := List.forall_mem_cons.1 hfs
    obtain ⟨hinf, hk⟩ := hi g hf
    obtain ⟨hinf', hk'⟩ := ih hfs (insert g f)
    refine ⟨hinf'.trans hinf, ?_⟩
    have hmove : I.Keeps (mul (f :: fs ++ g.factors shown)) (mul (fs ++ f :: g.factors shown)) :=
      .mul_perm List.perm_middle.symm
    exact (hmove.trans (.mul_append (.refl I _) hk)).trans hk'

/-! ## Putting the factors together -/

theorem keeps_assemble (c : ℚ) (fs : List Expr) : I.Keeps (mul (rat c :: fs)) (assemble c fs false) := by
  have hperm : I.Keeps (mul (rat c :: fs)) (mul (rat c :: sortFactors fs)) :=
    .mul_perm ((List.mergeSort_perm fs _).symm.cons _)
  refine hperm.trans fun h => ?_
  simp only [assemble, Bool.false_eq_true, if_false, List.append_nil]
  split
  · rw [eval_ofFactors, defined_ofFactors, eval_mul]
    exact ⟨(defined_mul _).1 h, rfl⟩
  · rename_i hc
    have hc : c = 1 := by simpa using (not_or.1 hc).1
    rw [defined_mul_cons] at h
    rw [eval_ofFactors, defined_ofFactors, eval_mul_cons, eval_mul, hc, eval_rat, map_one, one_mul]
    exact ⟨(defined_mul _).1 h.2, rfl⟩

/-- A coefficient may be spread over a sum. -/
theorem keeps_spread {product : List Expr → Expr} (hprod : ∀ fs, I.Keeps (mul fs) (product fs)) (c : ℚ)
    (ts : List Expr) : I.Keeps (mul [rat c, add ts]) (add (ts.map fun t => product [rat c, t])) := by
  induction ts with
  | nil => exact fun _ => ⟨by simp, by simp⟩
  | cons t ts ih =>
    intro h
    simp only [defined_mul_cons, defined_add_cons] at h
    obtain ⟨hc, ⟨ht, hts⟩, hnil⟩ := h
    obtain ⟨hd, hv⟩ := hprod [rat c, t] (by simpa using ht)
    obtain ⟨hds, hvs⟩ := ih ((defined_mul_cons _ _).2 ⟨hc, (defined_mul_cons _ _).2 ⟨hts, hnil⟩⟩)
    rw [List.map_cons, defined_add_cons, eval_add_cons, hv, hvs]
    refine ⟨⟨hd, hds⟩, ?_⟩
    simp only [eval_mul_cons, eval_add_cons]
    ring

theorem keeps_map_power {power : Expr → Expr → Expr} (hpow : ∀ b x, I.Keeps (pow b x) (power b x))
    (gs : List (Expr × Expr)) : I.Keeps (mul (gs.map asPower)) (mul (gs.map fun g => power g.1 g.2)) := by
  induction gs with
  | nil => exact .refl I _
  | cons g gs ih => exact .mul_cons (hpow g.1 g.2) ih

theorem any_undefined {xs : List Expr} (h : ∀ x ∈ xs, I.Defined x) : xs.any (· = undefined) = false := by
  simp only [List.any_eq_false, decide_eq_true_eq]
  exact fun x hx => (h x hx).ne_undefined

theorem keeps_collectBases {fs : List Expr} (hfs : ∀ f ∈ fs, I.Defined f) :
    (collectBases fs).hasInfinity = false ∧ I.Keeps (mul fs) (mul ((collectBases fs).factors asPower)) := by
  obtain ⟨hinf, hk⟩ := keeps_foldl keeps_insertBase hfs (⟨1, false, []⟩ : FactorGroups (Expr × Expr))
  exact ⟨hinf, (Keeps.mul_one fs).trans hk⟩

theorem keeps_collectRebuilt (c : ℚ) {fs : List Expr} (hfs : ∀ f ∈ fs, I.Defined f) :
    (collectRebuilt c false fs).hasInfinity = false ∧
      I.Keeps (mul (rat c :: fs)) (mul ((collectRebuilt c false fs).factors id)) := by
  obtain ⟨hinf, hk⟩ := keeps_foldl keeps_insertFactor hfs ⟨c, false, []⟩
  exact ⟨hinf, (Keeps.mul_perm (List.perm_append_singleton _ _).symm).trans hk⟩

/-! ## One round of the product -/

theorem keeps_multiplyOut {product : List Expr → Expr} (hprod : ∀ fs, I.Keeps (mul fs) (product fs))
    {parts : FactorGroups Expr} (hinf : parts.hasInfinity = false) :
    I.Keeps (mul (parts.factors id)) (multiplyOut product parts) := by
  rw [FactorGroups.factors, List.map_id]
  simp only [multiplyOut, hinf, Bool.false_eq_true, if_false]
  intro h
  split
  · rename_i hc
    exact ⟨defined_rat _, by rw [eval_mul_cons, eval_rat, hc, map_zero, zero_mul]; simp [zero]⟩
  · split
    · -- a factor is a product: everything goes round once more
      have hmove : I.Keeps (mul (rat parts.coeff :: parts.others)) (mul (parts.others ++ [rat parts.coeff])) :=
        .mul_perm (List.perm_append_singleton _ _).symm
      exact (hmove.trans (hprod _)) h
    · split
      · rename_i ts hts
        rw [hts] at h ⊢
        split
        · rename_i hc
          rw [hc] at h ⊢
          rw [defined_mul_cons, defined_mul_cons] at h
          exact ⟨h.2.1, by simp⟩
        · exact ((keeps_spread hprod _ ts).trans (keeps_sum I _)) h
      · exact keeps_assemble _ _ h

/-- One round of the product keeps the value if the powers and products that it calls do. -/
theorem keeps_productStep {power : Expr → Expr → Expr} {product : List Expr → Expr}
    (hpow : ∀ b x, I.Keeps (pow b x) (power b x)) (hprod : ∀ fs, I.Keeps (mul fs) (product fs)) (fs : List Expr) :
    I.Keeps (mul fs) (productStep power product fs) := by
  refine (keeps_flattenFactors fs).trans fun hflat => ?_
  have hflat' := (defined_mul _).1 hflat
  obtain ⟨hinf, hbases⟩ := keeps_collectBases hflat'
  simp only [productStep, any_undefined hflat', hinf, Bool.false_eq_true, if_false]
  generalize collectBases (flattenFactors fs) = bases at hbases ⊢
  have hpowers : I.Keeps (mul (bases.factors asPower))
      (mul (rat bases.coeff :: bases.others.map fun g => power g.1 g.2)) :=
    .mul_cons (.refl I _) (keeps_map_power hpow bases.others)
  have hk := hbases.trans hpowers
  have hdef := (hk hflat).1
  rw [defined_mul_cons, defined_mul] at hdef
  obtain ⟨hinf', hparts⟩ := keeps_collectRebuilt bases.coeff hdef.2
  rw [any_undefined hdef.2]
  exact ((hk.trans hparts).trans (keeps_multiplyOut hprod hinf')) hflat

theorem keeps_plainProduct (fs : List Expr) : I.Keeps (mul fs) (plainProduct fs) := by
  refine (keeps_flattenFactors fs).trans fun hflat => ?_
  obtain ⟨hinf, hparts⟩ := keeps_collectRebuilt 1 ((defined_mul _).1 hflat)
  rw [plainProduct, hinf]
  rw [FactorGroups.factors, List.map_id] at hparts
  have hone : I.Keeps (mul (flattenFactors fs)) (mul (rat 1 :: flattenFactors fs)) :=
    (Keeps.mul_one _).trans (.mul_perm (List.perm_append_singleton _ _))
  exact ((hone.trans hparts).trans (keeps_assemble _ _)) hflat

/-! ## Powers of rationals -/

theorem intPow_algebraMap {q : ℚ} {n : ℤ} (h : q ≠ 0 ∨ 0 ≤ n) :
    intPow (algebraMap ℚ A q) n = algebraMap ℚ A (q ^ n) := by
  rw [← intPow_eq_zpow, map_intPow _ (h.imp_left fun hq => IsUnit.mk0 q hq)]

theorem keeps_times (c : ℚ) (fs : List Expr) : I.Keeps (mul (rat c :: fs)) (times c fs) := by
  intro h
  unfold times
  split
  · rw [eval_ofFactors, defined_ofFactors, eval_mul]
    exact ⟨(defined_mul _).1 h, rfl⟩
  · rename_i hc
    have hc : c = 1 := by simpa using (not_or.1 hc).1
    rw [defined_mul_cons] at h
    rw [eval_ofFactors, defined_ofFactors, eval_mul_cons, eval_mul, hc, eval_rat, map_one, one_mul]
    exact ⟨(defined_mul _).1 h.2, rfl⟩

/-- Above a radicand the whole part of a half exponent is computed. -/
theorem keeps_positiveRoot {m : ℕ} (hm : Radicand m) (hb : I.Rooted (rat m)) (j : ℤ) :
    I.Keeps (pow (rat m) (rat (1 / 2 + j))) (positiveRoot m (1 / 2 + j)) := by
  intro h
  have hfloor : (1 / 2 + j : ℚ).floor = j := by
    change ⌊(1 / 2 + j : ℚ)⌋ = j
    rw [Int.floor_add_intCast, Int.floor_eq_zero_iff.2 (by norm_num), zero_add]
  cases hfits : powerFits m j with
  | false =>
    rw [positiveRoot, hfloor, hfits]
    exact ⟨h, rfl⟩
  | true =>
    have hm0 : (m : ℚ) ≠ 0 := Nat.cast_ne_zero.2 hm.ne_zero
    have hhalf : (1 / 2 : ℚ).num.natAbs = 1 ∧ (1 / 2 : ℚ).den = 2 := by decide +kernel
    have hden : (1 / 2 + j : ℚ).den = 2 := by
      have hodd : (1 / 2 + j : ℚ) = ((2 * j + 1 : ℤ) : ℚ) / 2 := by
        push_cast
        ring
      rw [hodd, (odd_div_two j).1]
    have hradical := hm.radical (.inr (.inl rfl))
    rw [hhalf.1, hhalf.2] at hradical
    have hroot : positiveRoot m (1 / 2 + j) = times (m ^ j) [pow (rat m) (rat (1 / 2))] := by
      rw [positiveRoot_eq_times (by rwa [hfloor]), hfloor, add_sub_cancel_right, hhalf.1, hden, Rat.num_natCast,
        Int.natAbs_natCast, hradical, Rat.den_natCast, radical_one, Rational.power_eq_zpow]
      simp [sortFactors]
    obtain ⟨u, -, hu⟩ := hb.halfPowers
    have hone := hu 1
    rw [Int.cast_one] at hone
    have hwhole : I.Defined (pow (rat m) (rat j)) := (defined_pow_int _ _).2 ⟨defined_rat _, .inl (isUnit_algebraMap hm0)⟩
    have hprod := (pow_mul_pow hwhole hone.1).2
    rw [eval_pow_int, eval_rat, intPow_algebraMap (.inl hm0)] at hprod
    rw [hroot, hprod]
    obtain ⟨hd, hv⟩ := keeps_times (I := I) (m ^ j) [pow (rat m) (rat (1 / 2))]
      ((defined_mul_cons _ _).2 ⟨defined_rat _, by simpa using hone.1⟩)
    exact ⟨hd, by simpa using hv⟩

/-! ## One round of the power -/

section Power

variable {power : Expr → Expr → Expr} {product : List Expr → Expr}

theorem Rooted.exponent_cases {b : Expr} (hb : I.Rooted b) {q : ℚ} (h : I.Defined (pow b (rat q))) :
    (∃ n : ℤ, q = n) ∨ ∃ j : ℤ, q = 1 / 2 + j := by
  obtain ⟨k, rfl⟩ := hb.half h
  obtain ⟨j, rfl | rfl⟩ := Int.even_or_odd' k
  · exact .inl ⟨j, by push_cast; ring⟩
  · exact .inr ⟨j, by push_cast; ring⟩

variable [Nontrivial A]

theorem Admits.ne_zero_or_nonneg {q : ℚ} {n : ℤ} (h : I.Admits (algebraMap ℚ A q) n) : q ≠ 0 ∨ 0 ≤ n := by
  refine h.unit_or_nonneg.imp_left fun hu hq => ?_
  rw [hq, map_zero] at hu
  exact not_isUnit_zero hu

theorem keeps_rationalPower (p : ℚ) {q : ℚ} (hq : q ≠ 0) :
    I.Keeps (pow (rat p) (rat q)) (rationalPower product p q) := by
  intro h
  by_cases hint : ∃ n : ℤ, q = n
  · obtain ⟨n, rfl⟩ := hint
    rw [defined_pow_int, eval_rat] at h
    have hn : n ≠ 0 := by exact_mod_cast hq
    have hcases := h.2.ne_zero_or_nonneg
    unfold rationalPower
    split
    · rename_i hp
      have hpos : (0 : ℚ) < n := by
        have := hcases.resolve_left (not_not_intro hp)
        exact_mod_cast lt_of_le_of_ne this hn.symm
      rw [if_pos hpos, eval_pow_int, eval_rat, intPow_algebraMap hcases, hp, zero_zpow n hn]
      exact ⟨defined_rat _, rfl⟩
    · rw [if_pos (Rat.den_intCast n), Rat.num_intCast]
      split
      · rw [eval_pow_int, eval_rat, eval_rat, intPow_algebraMap hcases, Rational.power_eq_zpow]
        exact ⟨defined_rat _, rfl⟩
      · exact ⟨(defined_pow_int _ _).2 h, rfl⟩
  · obtain ⟨n, hn, -⟩ | ⟨hb, -⟩ := h.pow_cases
    · exact absurd ⟨n, hn⟩ hint
    obtain ⟨j, rfl⟩ := (hb.exponent_cases h).resolve_left hint
    obtain ⟨m, hm, hrad, -⟩ := id hb
    obtain rfl := rat.inj hm
    have hodd : (1 / 2 + j : ℚ) = ((2 * j + 1 : ℤ) : ℚ) / 2 := by
      push_cast
      ring
    have hden : (1 / 2 + j : ℚ).den = 2 := by rw [hodd, (odd_div_two j).1]
    rw [rationalPower, if_neg (Nat.cast_ne_zero.2 hrad.ne_zero), hden, if_neg (by decide), if_neg (by decide),
      if_neg (not_lt.2 (Nat.cast_nonneg m))]
    exact keeps_positiveRoot hrad hb j h

omit [Nontrivial A] in
/-- A whole power of a product is the product of the powers. -/
theorem keeps_mul_pow (fs : List Expr) (n : ℤ) :
    I.Keeps (pow (mul fs) (rat n)) (mul (fs.map fun f => pow f (rat n))) := by
  intro h
  rw [defined_pow_int, defined_mul, eval_mul] at h
  obtain ⟨hfs, hn⟩ := h
  rw [defined_mul, eval_pow_int, eval_mul, eval_mul]
  constructor
  · intro f hf
    obtain ⟨g, hg, rfl⟩ := List.mem_map.1 hf
    rw [defined_pow_int]
    exact ⟨hfs g hg, hn.factor (List.mem_map_of_mem hg)⟩
  · rw [list_prod_intPow, List.map_map, List.map_map]
    exact congrArg List.prod (List.map_congr_left fun f _ => eval_pow_int f n)

omit [Nontrivial A] in
/-- The exponents of a power of a power multiply. -/
theorem keeps_pow_pow (b : Expr) {q : ℚ} (n : ℤ) :
    I.Keeps (pow (pow b (rat q)) (rat n)) (pow b (rat (q * n))) := by
  intro h
  rw [defined_pow_int] at h
  obtain ⟨hin, hn⟩ := h
  rw [eval_pow_int]
  obtain ⟨m, rfl, hb, hm⟩ | ⟨hb, k, rfl⟩ := hin.pow_cases
  · rw [eval_pow_int] at hn ⊢
    obtain ⟨hmul, hv⟩ := hm.mul hn
    rw [← Int.cast_mul, defined_pow_int, eval_pow_int, hv]
    exact ⟨⟨hb, hmul⟩, rfl⟩
  · obtain ⟨u, -, hu⟩ := hb.halfPowers
    have hexp : (k / 2 * n : ℚ) = ((k * n : ℤ) : ℚ) / 2 := by
      push_cast
      ring
    rw [hexp, (hu (k * n)).2, (hu k).2, intPow_unit, zpow_mul]
    exact ⟨(hu (k * n)).1, rfl⟩

omit [Nontrivial A] in
theorem keeps_powerOfBase (hpow : ∀ b x, I.Keeps (pow b x) (power b x))
    (hprod : ∀ fs, I.Keeps (mul fs) (product fs)) (hexp : ∀ m n : ℚ, product [rat m, rat n] = rat (m * n)) (b : Expr)
    (n : ℤ) : I.Keeps (pow b (rat n)) (powerOfBase power product b (rat n)) := by
  have hint : (rat (n : ℚ)).isInteger = true := by simp [isInteger, Rational.isInt]
  intro h
  unfold powerOfBase
  split
  · rename_i b0 x0
    rw [hint, Bool.true_or, if_pos rfl]
    obtain ⟨q, rfl⟩ := ((defined_pow_int _ _).1 h).1.exponent
    rw [hexp]
    exact ((keeps_pow_pow b0 n).trans (hpow _ _)) h
  · rename_i fs
    rw [hint, if_pos rfl]
    have hmap : I.Keeps (mul (fs.map fun f => pow f (rat n))) (mul (fs.map fun f => power f (rat n))) := by
      simpa [asPower, Function.comp_def] using keeps_map_power hpow (fs.map fun f => (f, rat (n : ℚ)))
    exact (((keeps_mul_pow fs n).trans hmap).trans (hprod _)) h
  · exact ⟨h, rfl⟩

omit [Nontrivial A] in
/-- The powers of the imaginary unit repeat after four. -/
theorem keeps_iPower (n : ℤ) : I.Keeps (pow i (rat n)) (iPower n) := by
  intro h
  have hi := ((defined_pow_int _ _).1 h).1
  obtain ⟨j, hj⟩ := Option.isSome_iff_exists.1 hi
  have hsq := I.i_mul_self j hj
  have heval : I.eval i = j := by
    change I.i?.getD 0 = j
    rw [hj, Option.getD_some]
  obtain ⟨u, rfl⟩ : IsUnit j := isUnit_of_mul_isUnit_left (hsq ▸ isUnit_one.neg)
  have hu : u ^ 2 = -1 := Units.ext (by simpa [sq] using hsq)
  have hperiod (k : ℕ) (hk : n.emod 4 = k) : u ^ n = u ^ k := by
    have hn : n = 4 * (n / 4) + k := by
      rw [← hk]
      exact (Int.mul_ediv_add_emod n 4).symm
    have hfour : u ^ (4 : ℤ) = 1 := by
      rw [show (4 : ℤ) = ((2 * 2 : ℕ) : ℤ) from rfl, zpow_natCast, pow_mul, hu, neg_one_sq]
    rw [hn, zpow_add, zpow_mul, hfour, one_zpow, one_mul, zpow_natCast]
  rw [eval_pow_int, heval, intPow_unit]
  unfold iPower
  split
  · rename_i hn
    exact ⟨defined_rat _, by rw [hperiod 0 hn]; simp [Expr.one]⟩
  · rename_i hn
    exact ⟨hi, by rw [hperiod 1 hn, heval, pow_one]⟩
  · rename_i hn
    exact ⟨defined_rat _, by rw [hperiod 2 hn, hu]; simp⟩
  · rename_i h0 h1 h2
    have hn : n.emod 4 = ((3 : ℕ) : ℤ) := by
      have hlt := Int.emod_lt_of_pos n (show (0 : ℤ) < 4 by decide)
      have hle := Int.emod_nonneg n (show (4 : ℤ) ≠ 0 by decide)
      change n % 4 = 3
      have h0 : n % 4 ≠ 0 := h0
      have h1 : n % 4 ≠ 1 := h1
      have h2 : n % 4 ≠ 2 := h2
      omega
    refine ⟨(defined_mul _).2 (by simpa using hi), ?_⟩
    rw [hperiod 3 hn, pow_succ, hu, eval_mul]
    simp [heval]

omit [Nontrivial A] in
theorem defined_base {b : Expr} {q : ℚ} (h : I.Defined (pow b (rat q))) : I.Defined b := by
  obtain ⟨n, -, hb, -⟩ | ⟨⟨m, rfl, -⟩, -⟩ := h.pow_cases
  · exact hb
  · exact defined_rat _

omit [Nontrivial A] in
theorem keeps_plainPower (b x : Expr) : I.Keeps (pow b x) (plainPower b x) := by
  intro h
  obtain ⟨q, rfl⟩ := h.exponent
  have hb := defined_base h
  unfold plainPower
  rw [if_neg (by simp [hb.ne_undefined])]
  by_cases h0 : q = 0
  · subst h0
    rw [if_pos (by simp [isZero])]
    refine ⟨defined_rat _, ?_⟩
    have hv := eval_pow_int (I := I) b 0
    rw [Int.cast_zero] at hv
    rw [hv]
    simp [Expr.one]
  rw [if_neg (by simpa [isZero] using h0)]
  by_cases h1 : q = 1
  · subst h1
    rw [if_pos (by simp [isOne])]
    have hv := eval_pow_int (I := I) b 1
    rw [Int.cast_one, intPow_one] at hv
    exact ⟨hb, hv.symm⟩
  rw [if_neg (by simpa [isOne] using h1)]
  by_cases hb1 : b.isOne = true
  · rw [if_pos hb1, if_pos (by simp [isFinite, exist])]
    obtain rfl : b = rat 1 := by
      cases b <;> simp [isOne] at hb1
      rw [hb1]
    obtain ⟨n, rfl, -, -⟩ | ⟨⟨m, hm, hrad, -⟩, -⟩ := h.pow_cases
    · rw [eval_pow_int]
      exact ⟨defined_rat _, by simp [Expr.one]⟩
    · have hone : (1 : ℚ) = m := rat.inj hm
      exact absurd (by exact_mod_cast hone.symm) hrad.ne_one
  rw [if_neg hb1]
  exact ⟨h, rfl⟩

/-- One round of the power keeps the value if the powers and products that it calls do, and if the product
multiplies two exponents exactly. -/
theorem keeps_powerStep (hpow : ∀ b x, I.Keeps (pow b x) (power b x))
    (hprod : ∀ fs, I.Keeps (mul fs) (product fs)) (hexp : ∀ m n : ℚ, product [rat m, rat n] = rat (m * n))
    (b x : Expr) : I.Keeps (pow b x) (powerStep power product b x) := by
  intro h
  obtain ⟨q, rfl⟩ := h.exponent
  have hb := defined_base h
  by_cases hplain : (rat q).isZero = true ∨ (rat q).isOne = true ∨ b.isOne = true
  · rw [powerStep_eq_plainPower _ _ hplain]
    exact keeps_plainPower b _ h
  obtain ⟨h0, h1, hb1⟩ : (rat q).isZero ≠ true ∧ (rat q).isOne ≠ true ∧ b.isOne ≠ true := by
    simpa only [not_or] using hplain
  have hxinf : (rat q).infinitySign? = none := rfl
  unfold powerStep
  rw [if_neg (by simp [hb.ne_undefined]), if_neg h0, if_neg h1, if_neg hb1, hb.infinitySign?_eq_none, hxinf]
  have hwhole : b.rat? = none → ∃ n : ℤ, q = n := fun hrat => by
    obtain ⟨n, hn, -⟩ | ⟨⟨m, rfl, -⟩, -⟩ := h.pow_cases
    · exact ⟨n, hn⟩
    · cases hrat
  cases b with
  | rat p => exact keeps_rationalPower p (by simpa [isZero] using h0) h
  | i =>
    obtain ⟨n, rfl⟩ := hwhole rfl
    dsimp only
    rw [if_pos (by simp [Rational.isInt]), Rat.num_intCast]
    exact keeps_iPower n h
  | pi | e | infinity | undefined | var | add | mul | fn | pow =>
    obtain ⟨n, rfl⟩ := hwhole rfl
    exact keeps_powerOfBase hpow hprod hexp _ n h

end Power

/-! ## All rounds -/

variable [Nontrivial A]

theorem keeps_within (I : Interpretation A) (n : ℕ) :
    (∀ fs, I.Keeps (mul fs) (productWithin n fs)) ∧ ∀ b x, I.Keeps (pow b x) (powerWithin n b x) := by
  induction n with
  | zero => exact ⟨keeps_productStep keeps_plainPower keeps_plainProduct, keeps_plainPower⟩
  | succ n ih =>
    obtain ⟨hprod, hpow⟩ := ih
    exact ⟨keeps_productStep hpow hprod, keeps_powerStep hpow hprod (productWithin_rat_rat n)⟩

/-- A canonical product has the value of the product. -/
theorem keeps_product (I : Interpretation A) (fs : List Expr) : I.Keeps (mul fs) (product fs) :=
  (keeps_within I _).1 fs

/-- A canonical power has the value of the power. -/
theorem keeps_power (I : Interpretation A) (b x : Expr) : I.Keeps (pow b x) (power b x) :=
  (keeps_within I _).2 b x

end SymbolicSolver.Interpretation
