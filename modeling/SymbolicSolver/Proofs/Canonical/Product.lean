import SymbolicSolver.Proofs.Canonical.Sum

/-!
# The value of canonical products and powers

Products and powers call each other within a number of rounds. One round of either keeps the value if the
operations that it calls do, and so do the operations that stand in when no round is left; hence both keep
the value for every number of rounds.

A power of a power multiplies the exponents by a call to the product. The result must again be a whole number
in the exponent, so the rounds are also shown to multiply two rationals exactly.
-/

namespace SymbolicSolver

/-- Powers with a whole exponent are those of the field. -/
theorem Rational.power_eq_zpow (b : Rat) (n : Int) : Rational.power b n = b ^ n := by
  unfold Rational.power
  cases n with
  | ofNat n => simp
  | negSucc n =>
    rw [if_pos (Int.negSucc_lt_zero n), Int.natAbs_negSucc, zpow_negSucc]

namespace Expr

variable {r : Reading}

/-! ## Flattening -/

/-- What holds of the operands and goes from a product to its factors holds of the flat factors, and none of them is a
product. -/
theorem flattenFactors_all {Q : Expr → Prop} (hmul : ∀ {ys}, Q (mul ys) → ∀ y ∈ ys, Q y) {fs : List Expr}
    (h : ∀ f ∈ fs, Q f) : ∀ f ∈ flattenFactors fs, Q f ∧ f.isProduct = false := by
  fun_induction flattenFactors fs with
  | case1 => simp
  | case2 ys xs ihy ihx =>
    obtain ⟨hy, hx⟩ := List.forall_mem_cons.1 h
    exact List.forall_mem_append.2 ⟨ihy (hmul hy), ihx hx⟩
  | case3 x xs hnot ih =>
    obtain ⟨hx, hxs⟩ := List.forall_mem_cons.1 h
    refine List.forall_mem_cons.2 ⟨⟨hx, ?_⟩, ih hxs⟩
    cases x with
    | mul ys => exact absurd rfl (hnot ys)
    | _ => rfl

theorem flattenFactors_keepsValue (fs : List Expr) :
    KeepsValue r (mul fs) (mul (flattenFactors fs)) := by
  fun_induction flattenFactors fs with
  | case1 => exact .refl r _
  | case2 ys xs ihy ihx => exact (KeepsValue.mul_flatten ys xs).trans (.mul_append ihy ihx)
  | case3 x xs _ ih => exact .mul_cons (.refl r x) ih

/-! ## Collecting bases -/

/-- The power that a collected base and its exponent stand for. -/
def asPower (g : Expr × Expr) : Expr := pow g.1 g.2

theorem pow_one_keepsValue (f : Expr) : KeepsValue r f (pow f one) := by
  intro h
  simpa [one] using h

/-- Exponents are added exactly. -/
theorem sum_rat_rat (m n : Rat) : sum [rat m, rat n] = rat (m + n) := by
  by_cases h : m + n = 0 <;>
    simp [sum, flattenTerms, TermGroups.insert, TermGroups.empty, ofTerms, zero, h]

/-- Two powers of one base make a power with the sum of the exponents. -/
theorem pow_sum_keepsValue (b x y : Expr) (fs : List Expr) :
    KeepsValue r (mul (pow b x :: pow b y :: fs)) (mul (pow b (sum [y, x]) :: fs)) := by
  intro h
  simp only [defined_mul_cons] at h
  obtain ⟨m, rfl⟩ := h.1.exponent_int
  obtain ⟨n, rfl⟩ := h.2.1.exponent_int
  obtain ⟨⟨hb, hm⟩, ⟨-, hn⟩, hfs⟩ := by simpa only [defined_pow_int] using h
  rw [sum_rat_rat, ← Int.cast_add]
  simp only [defined_mul_cons, eval_mul_cons, defined_pow_int, eval_pow_int]
  by_cases h0 : eval r b = 0
  · -- Neither exponent is negative, so the powers of zero multiply as they should.
    have hm : 0 ≤ m := hm.resolve_right (not_not_intro h0)
    have hn : 0 ≤ n := hn.resolve_right (not_not_intro h0)
    refine ⟨⟨⟨hb, .inl (by omega)⟩, hfs⟩, ?_⟩
    rw [zpow_add' (by omega)]
    ring
  · refine ⟨⟨⟨hb, .inr h0⟩, hfs⟩, ?_⟩
    rw [zpow_add₀ h0]
    ring

/-- One more power among the collected ones. -/
theorem collectBase_keepsValue (b x : Expr) (gs : List (Expr × Expr)) :
    KeepsValue r (mul (pow b x :: gs.map asPower)) (mul ((collectBase b x gs).map asPower)) := by
  induction gs with
  | nil => exact .refl r _
  | cons g gs ih =>
    obtain ⟨c, y⟩ := g
    simp only [collectBase]
    split
    · rename_i hc
      subst hc
      exact pow_sum_keepsValue c x y _
    · have hswap : KeepsValue r (mul (pow b x :: pow c y :: gs.map asPower))
          (mul (pow c y :: pow b x :: gs.map asPower)) := .mul_perm (List.Perm.swap ..)
      exact hswap.trans (.mul_cons (.refl r _) ih)

namespace FactorGroups

/-- The factors that the parts of a product stand for; `shown` turns the other parts into expressions. -/
def factors {α : Type} (shown : α → Expr) (g : FactorGroups α) : List Expr :=
  rat g.coeff :: g.others.map shown

/-- The coefficient goes to the front, and the rest takes the new factor in. -/
theorem insert_keepsValue {f : Expr} {c : Rat} {xs ys : List Expr}
    (h : KeepsValue r (mul (f :: xs)) (mul ys)) :
    KeepsValue r (mul (f :: rat c :: xs)) (mul (rat c :: ys)) := by
  have hswap : KeepsValue r (mul (f :: rat c :: xs)) (mul (rat c :: f :: xs)) :=
    .mul_perm (List.Perm.swap ..)
  exact hswap.trans (.mul_cons (.refl r _) h)

theorem insertBase_keepsValue (g : FactorGroups (Expr × Expr)) {f : Expr} (hf : Defined r f) :
    (g.insertBase f).hasInfinity = g.hasInfinity ∧
      KeepsValue r (mul (f :: g.factors asPower)) (mul ((g.insertBase f).factors asPower)) := by
  cases f with
  | rat q =>
    refine ⟨rfl, ?_⟩
    have h := KeepsValue.mul_rat_rat (r := r) q g.coeff (g.others.map asPower)
    rwa [mul_comm q] at h
  | infinity => simp at hf
  | pow b x => exact ⟨rfl, insert_keepsValue (collectBase_keepsValue b x _)⟩
  | pi | e | i | undefined | var | add | mul | fn =>
    refine ⟨rfl, insert_keepsValue ?_⟩
    exact (KeepsValue.mul_cons (pow_one_keepsValue _) (.refl r _)).trans
      (collectBase_keepsValue _ one _)

theorem insertFactor_keepsValue (g : FactorGroups Expr) {f : Expr} (hf : Defined r f) :
    (g.insertFactor f).hasInfinity = g.hasInfinity ∧
      KeepsValue r (mul (f :: g.factors id)) (mul ((g.insertFactor f).factors id)) := by
  cases f with
  | rat q =>
    refine ⟨rfl, ?_⟩
    have h := KeepsValue.mul_rat_rat (r := r) q g.coeff (g.others.map id)
    rwa [mul_comm q] at h
  | infinity => simp at hf
  | pi | e | i | undefined | var | add | mul | fn | pow =>
    refine ⟨rfl, insert_keepsValue (.mul_perm ?_)⟩
    simp only [List.map_id, insertFactor]
    exact (List.perm_append_singleton _ _).symm

/-- Inserting a list of factors, one after the other, by an operation that keeps the value. -/
theorem foldl_keepsValue {α : Type} {shown : α → Expr} {insert : FactorGroups α → Expr → FactorGroups α}
    (hi : ∀ (g : FactorGroups α) {f : Expr}, Defined r f →
      (insert g f).hasInfinity = g.hasInfinity ∧
        KeepsValue r (mul (f :: g.factors shown)) (mul ((insert g f).factors shown)))
    {fs : List Expr} (hfs : ∀ f ∈ fs, Defined r f) (g : FactorGroups α) :
    (fs.foldl insert g).hasInfinity = g.hasInfinity ∧
      KeepsValue r (mul (fs ++ g.factors shown)) (mul ((fs.foldl insert g).factors shown)) := by
  induction fs generalizing g with
  | nil => exact ⟨rfl, .refl r _⟩
  | cons f fs ih =>
    obtain ⟨hf, hfs⟩ := List.forall_mem_cons.1 hfs
    obtain ⟨hinf, hk⟩ := hi g hf
    obtain ⟨hinf', hk'⟩ := ih hfs (insert g f)
    refine ⟨hinf'.trans hinf, ?_⟩
    have hmove : KeepsValue r (mul (f :: fs ++ g.factors shown)) (mul (fs ++ f :: g.factors shown)) :=
      .mul_perm List.perm_middle.symm
    exact (hmove.trans (.mul_append (.refl r _) hk)).trans hk'

end FactorGroups

/-! ## What is collected -/

/-- The base and the exponent that a factor is collected under. -/
def asBase : Expr → Expr × Expr
  | pow b x => (b, x)
  | f => (f, one)

section Collected

variable {P : Expr → Expr → Prop} (hsum : ∀ {b x y}, P b x → P b y → P b (sum [x, y]))

include hsum

theorem collectBase_all {b x : Expr} (hb : P b x) {gs : List (Expr × Expr)} (hgs : ∀ g ∈ gs, P g.1 g.2) :
    ∀ g ∈ collectBase b x gs, P g.1 g.2 := by
  induction gs with
  | nil => simpa [collectBase] using hb
  | cons g gs ih =>
    obtain ⟨c, y⟩ := g
    obtain ⟨hg, hgs⟩ := List.forall_mem_cons.1 hgs
    rw [collectBase]
    split
    · rename_i hc
      subst hc
      exact List.forall_mem_cons.2 ⟨hsum hg hb, hgs⟩
    · exact List.forall_mem_cons.2 ⟨hg, ih hgs⟩

/-- What holds of the bases and exponents of the factors, and of the sum of two exponents of one base, holds of the
collected bases. -/
theorem collectBases_all {fs : List Expr}
    (h : ∀ f ∈ fs, f.rat? = none → f ≠ infinity → P (asBase f).1 (asBase f).2) :
    ∀ g ∈ (collectBases fs).others, P g.1 g.2 := by
  have hstart : ∀ q ∈ (⟨1, false, []⟩ : FactorGroups (Expr × Expr)).others, P q.1 q.2 := by simp
  unfold collectBases
  generalize (⟨1, false, []⟩ : FactorGroups (Expr × Expr)) = g at hstart ⊢
  induction fs generalizing g with
  | nil => exact hstart
  | cons f fs ih =>
    obtain ⟨hf, hfs⟩ := List.forall_mem_cons.1 h
    refine ih hfs _ ?_
    cases f with
    | rat q => exact hstart
    | infinity => exact hstart
    | pi | e | i | undefined | var | add | mul | fn | pow => exact collectBase_all hsum (hf rfl (by simp)) hstart

end Collected

/-- The elements of a list that are neither rationals nor infinity. -/
def plainFactors (fs : List Expr) : List Expr := fs.filter fun f => f.rat?.isNone && f ≠ infinity

theorem mem_plainFactors {f : Expr} {fs : List Expr} : f ∈ plainFactors fs ↔ f ∈ fs ∧ f.rat? = none ∧ f ≠ infinity := by
  simp [plainFactors]

/-- Rationals among the rebuilt powers join the coefficient, and infinity is noted. -/
theorem collectRebuilt_parts (c : Rat) (inf : Bool) (fs : List Expr) : collectRebuilt c inf fs =
    ⟨c * (fs.filterMap rat?).prod, inf || infinity ∈ fs, plainFactors fs⟩ := by
  suffices hfold : ∀ (fs : List Expr) (g : FactorGroups Expr), fs.foldl FactorGroups.insertFactor g =
      ⟨g.coeff * (fs.filterMap rat?).prod, g.hasInfinity || infinity ∈ fs, g.others ++ plainFactors fs⟩ from
    hfold fs ⟨c, inf, []⟩
  intro fs
  induction fs with
  | nil => simp [plainFactors]
  | cons f fs ih =>
    intro g
    rw [List.foldl_cons, ih]
    cases f <;> simp [FactorGroups.insertFactor, plainFactors, List.filterMap_cons, rat?, mul_assoc]

/-- Rationals among the flat factors are multiplied, infinity is noted, and the other factors are collected by base. -/
theorem collectBases_parts (fs : List Expr) : collectBases fs =
    ⟨(fs.filterMap rat?).prod, infinity ∈ fs,
      (plainFactors fs).foldl (fun gs f => collectBase (asBase f).1 (asBase f).2 gs) []⟩ := by
  suffices hfold : ∀ (fs : List Expr) (g : FactorGroups (Expr × Expr)), fs.foldl FactorGroups.insertBase g =
      ⟨g.coeff * (fs.filterMap rat?).prod, g.hasInfinity || infinity ∈ fs,
        (plainFactors fs).foldl (fun gs f => collectBase (asBase f).1 (asBase f).2 gs) g.others⟩ by
    simpa [collectBases] using hfold fs ⟨1, false, []⟩
  intro fs
  induction fs with
  | nil => simp [plainFactors]
  | cons f fs ih =>
    intro g
    rw [List.foldl_cons, ih]
    cases f <;> simp [FactorGroups.insertBase, plainFactors, List.filterMap_cons, rat?, mul_assoc, asBase]

/-! ## Putting the factors together -/

theorem assemble_keepsValue (c : Rat) (fs : List Expr) :
    KeepsValue r (mul (rat c :: fs)) (assemble c fs false) := by
  have hperm : KeepsValue r (mul (rat c :: fs)) (mul (rat c :: sortFactors fs)) :=
    .mul_perm ((List.mergeSort_perm fs _).symm.cons _)
  refine hperm.trans fun h => ?_
  simp only [assemble, Bool.false_eq_true, if_false, List.append_nil]
  split
  · rw [eval_ofFactors, defined_ofFactors, eval_mul]
    exact ⟨(defined_mul _).1 h, rfl⟩
  · rename_i hc
    have hc : c = 1 := by simpa using (not_or.1 hc).1
    rw [defined_mul_cons] at h
    rw [eval_ofFactors, defined_ofFactors, eval_mul_cons, eval_mul, hc, eval_rat, one_mul]
    exact ⟨(defined_mul _).1 h.2, rfl⟩

/-- A coefficient may be spread over a sum. -/
theorem spread_keepsValue {product : List Expr → Expr}
    (hprod : ∀ fs, KeepsValue r (mul fs) (product fs)) (c : Rat) (ts : List Expr) :
    KeepsValue r (mul [rat c, add ts]) (add (ts.map fun t => product [rat c, t])) := by
  induction ts with
  | nil => exact fun _ => ⟨by simp, by simp⟩
  | cons t ts ih =>
    intro h
    simp only [defined_mul_cons, defined_add_cons] at h
    obtain ⟨hc, ⟨ht, hts⟩, hnil⟩ := h
    obtain ⟨hd, hv⟩ := hprod [rat c, t] (by simpa using ht)
    obtain ⟨hds, hvs⟩ := ih ((defined_mul_cons _ _).2 ⟨hc, (defined_mul_cons _ _).2 ⟨hts, hnil⟩⟩)
    rw [List.map_cons, defined_add_cons, eval_add_cons, hv, hvs]
    refine ⟨⟨hd, hds⟩, ?_⟩
    simp only [eval_mul_cons, eval_add_cons]
    ring

theorem map_power_keepsValue {power : Expr → Expr → Expr}
    (hpow : ∀ b x, KeepsValue r (pow b x) (power b x)) (gs : List (Expr × Expr)) :
    KeepsValue r (mul (gs.map asPower)) (mul (gs.map fun g => power g.1 g.2)) := by
  induction gs with
  | nil => exact .refl r _
  | cons g gs ih => exact .mul_cons (hpow g.1 g.2) ih

theorem any_undefined_eq_false_of_ne {xs : List Expr} (h : ∀ x ∈ xs, x ≠ undefined) :
    xs.any (· = undefined) = false := by
  simpa only [List.any_eq_false, decide_eq_true_eq] using h

theorem any_undefined_eq_false {xs : List Expr} (h : ∀ x ∈ xs, Defined r x) :
    xs.any (· = undefined) = false :=
  any_undefined_eq_false_of_ne fun x hx => (h x hx).ne_undefined

theorem collectBases_keepsValue {fs : List Expr} (hfs : ∀ f ∈ fs, Defined r f) :
    (collectBases fs).hasInfinity = false ∧
      KeepsValue r (mul fs) (mul ((collectBases fs).factors asPower)) := by
  obtain ⟨hinf, hk⟩ := FactorGroups.foldl_keepsValue FactorGroups.insertBase_keepsValue hfs
    (⟨1, false, []⟩ : FactorGroups (Expr × Expr))
  exact ⟨hinf, (KeepsValue.mul_one fs).trans hk⟩

theorem collectRebuilt_keepsValue (c : Rat) {fs : List Expr} (hfs : ∀ f ∈ fs, Defined r f) :
    (collectRebuilt c false fs).hasInfinity = false ∧
      KeepsValue r (mul (rat c :: fs)) (mul ((collectRebuilt c false fs).factors id)) := by
  obtain ⟨hinf, hk⟩ := FactorGroups.foldl_keepsValue FactorGroups.insertFactor_keepsValue hfs
    ⟨c, false, []⟩
  exact ⟨hinf, (KeepsValue.mul_perm (List.perm_append_singleton _ _).symm).trans hk⟩

/-! ## One round -/

theorem multiplyOut_keepsValue {product : List Expr → Expr}
    (hprod : ∀ fs, KeepsValue r (mul fs) (product fs)) {parts : FactorGroups Expr}
    (hinf : parts.hasInfinity = false) :
    KeepsValue r (mul (parts.factors id)) (multiplyOut product parts) := by
  rw [FactorGroups.factors, List.map_id]
  simp only [multiplyOut, hinf, Bool.false_eq_true, if_false]
  intro h
  split
  · rename_i hc
    exact ⟨defined_rat _, by rw [eval_mul_cons, eval_rat, hc, zero_mul]; rfl⟩
  · split
    · -- a factor is a product: everything goes round once more
      have hmove : KeepsValue r (mul (rat parts.coeff :: parts.others))
          (mul (parts.others ++ [rat parts.coeff])) :=
        .mul_perm (List.perm_append_singleton _ _).symm
      exact (hmove.trans (hprod _)) h
    · split
      · rename_i ts hts
        rw [hts] at h ⊢
        split
        · rename_i hc
          rw [hc] at h ⊢
          rw [defined_mul_cons, defined_mul_cons] at h
          exact ⟨h.2.1, by simp⟩
        · exact ((spread_keepsValue hprod _ ts).trans (sum_keepsValue r _)) h
      · exact assemble_keepsValue _ _ h

/-- One round of the product keeps the value if the powers and products that it calls do. -/
theorem productStep_keepsValue {power : Expr → Expr → Expr} {product : List Expr → Expr}
    (hpow : ∀ b x, KeepsValue r (pow b x) (power b x))
    (hprod : ∀ fs, KeepsValue r (mul fs) (product fs)) (fs : List Expr) :
    KeepsValue r (mul fs) (productStep power product fs) := by
  refine (flattenFactors_keepsValue fs).trans fun hflat => ?_
  have hflat' := (defined_mul _).1 hflat
  obtain ⟨hinf, hbases⟩ := collectBases_keepsValue hflat'
  simp only [productStep, any_undefined_eq_false hflat', hinf, Bool.false_eq_true, if_false]
  generalize collectBases (flattenFactors fs) = bases at hbases ⊢
  have hpowers : KeepsValue r (mul (bases.factors asPower))
      (mul (rat bases.coeff :: bases.others.map fun g => power g.1 g.2)) :=
    .mul_cons (.refl r _) (map_power_keepsValue hpow bases.others)
  have hk := hbases.trans hpowers
  have hdef := (hk hflat).1
  rw [defined_mul_cons, defined_mul] at hdef
  obtain ⟨hinf', hparts⟩ := collectRebuilt_keepsValue bases.coeff hdef.2
  rw [any_undefined_eq_false hdef.2]
  exact ((hk.trans hparts).trans (multiplyOut_keepsValue hprod hinf')) hflat

/-- Two rationals are multiplied exactly in one round. -/
theorem productStep_rat_rat (power : Expr → Expr → Expr) (product : List Expr → Expr) (m n : Rat) :
    productStep power product [rat m, rat n] = rat (m * n) := by
  by_cases h : m * n = 0 <;>
    simp [productStep, flattenFactors, collectBases, FactorGroups.insertBase, collectRebuilt,
      multiplyOut, assemble, sortFactors, ofFactors, zero, h]

theorem plainProduct_keepsValue (fs : List Expr) : KeepsValue r (mul fs) (plainProduct fs) := by
  refine (flattenFactors_keepsValue fs).trans fun hflat => ?_
  obtain ⟨hinf, hparts⟩ := collectRebuilt_keepsValue 1 ((defined_mul _).1 hflat)
  rw [plainProduct, hinf]
  rw [FactorGroups.factors, List.map_id] at hparts
  have hone : KeepsValue r (mul (flattenFactors fs)) (mul (rat 1 :: flattenFactors fs)) :=
    (KeepsValue.mul_one _).trans (.mul_perm (List.perm_append_singleton _ _))
  exact ((hone.trans hparts).trans (assemble_keepsValue _ _)) hflat

/-! ## Powers -/

theorem rationalPower_keepsValue (product : List Expr → Expr) (b : Rat) {n : Int} (hn : n ≠ 0) :
    KeepsValue r (pow (rat b) (rat n)) (rationalPower product b n) := by
  intro h
  unfold rationalPower
  split
  · rename_i hb
    rw [defined_pow_int, hb] at h
    have hpos : 0 < n := lt_of_le_of_ne (by simpa using h.2) (Ne.symm hn)
    rw [if_pos (by exact_mod_cast hpos)]
    exact ⟨defined_rat _, by simp [zero, hb, zero_zpow n hn]⟩
  · rw [if_pos (Rat.den_intCast n), Rat.num_intCast]
    by_cases hfits : powerFits b n = true
    · rw [if_pos hfits]
      exact ⟨defined_rat _, by rw [eval_rat, eval_pow_int, eval_rat, Rational.power_eq_zpow]⟩
    · rw [if_neg hfits]
      exact ⟨h, rfl⟩

/-- A whole power of a product is the product of the powers. -/
theorem mul_pow_keepsValue (fs : List Expr) (n : Int) :
    KeepsValue r (pow (mul fs) (rat n)) (mul (fs.map fun f => pow f (rat n))) := by
  intro h
  rw [defined_pow_int, defined_mul, eval_mul] at h
  obtain ⟨hfs, hn⟩ := h
  rw [defined_mul, eval_pow_int, eval_mul, eval_mul]
  constructor
  · intro f hf
    obtain ⟨g, hg, rfl⟩ := List.mem_map.1 hf
    rw [defined_pow_int]
    -- A product that is not zero has no factor zero.
    refine ⟨hfs g hg, hn.imp_right fun h0 h => h0 ?_⟩
    exact List.prod_eq_zero (List.mem_map.2 ⟨g, hg, h⟩)
  · rw [List.map_map]
    clear hfs hn
    induction fs with
    | nil => simp
    | cons f fs ih => simp [ih, mul_zpow]

/-- The exponents of a power of a power multiply. -/
theorem pow_pow_keepsValue (b : Expr) (m n : Int) :
    KeepsValue r (pow (pow b (rat m)) (rat n)) (pow b (rat (m * n : Int))) := by
  intro h
  rw [defined_pow_int, defined_pow_int, eval_pow_int] at h
  obtain ⟨⟨hb, hm⟩, hn⟩ := h
  rw [defined_pow_int]
  refine ⟨⟨hb, ?_⟩, by rw [eval_pow_int, eval_pow_int, eval_pow_int, zpow_mul]⟩
  by_cases h0 : eval r b = 0
  · left
    have hm : 0 ≤ m := hm.resolve_right (not_not_intro h0)
    rcases hn with hn | hn
    · exact mul_nonneg hm hn
    · -- the inner power is not zero, so its exponent is
      have : m = 0 := by
        by_contra hm0
        exact hn (by rw [h0, zero_zpow m hm0])
      simp [this]
  · exact .inr h0

theorem powerOfBase_keepsValue {power : Expr → Expr → Expr} {product : List Expr → Expr}
    (hpow : ∀ b x, KeepsValue r (pow b x) (power b x))
    (hprod : ∀ fs, KeepsValue r (mul fs) (product fs))
    (hexp : ∀ m n : Rat, product [rat m, rat n] = rat (m * n)) (b : Expr) (n : Int) :
    KeepsValue r (pow b (rat n)) (powerOfBase power product b (rat n)) := by
  have hint : (rat (n : Rat)).isInteger = true := by simp [isInteger, Rational.isInt]
  intro h
  unfold powerOfBase
  split
  · rename_i b0 x0
    rw [hint, Bool.true_or, if_pos rfl]
    obtain ⟨m, rfl⟩ := ((defined_pow_int _ _).1 h).1.exponent_int
    rw [hexp, ← Int.cast_mul]
    exact ((pow_pow_keepsValue b0 m n).trans (hpow _ _)) h
  · rename_i fs
    rw [hint, if_pos rfl]
    have hmap : KeepsValue r (mul (fs.map fun f => pow f (rat n)))
        (mul (fs.map fun f => power f (rat n))) := by
      simpa [asPower, Function.comp_def] using map_power_keepsValue hpow (fs.map fun f => (f, rat (n : Rat)))
    exact (((mul_pow_keepsValue fs n).trans hmap).trans (hprod _)) h
  · exact ⟨h, rfl⟩

/-- What zero or one decide is decided without a further power or product. -/
theorem powerStep_eq_plainPower (power : Expr → Expr → Expr) (product : List Expr → Expr) {b x : Expr}
    (h : x.isZero = true ∨ x.isOne = true ∨ b.isOne = true) : powerStep power product b x = plainPower b x := by
  unfold powerStep plainPower
  rcases h with h | h | h
  · simp only [h, if_true]
  · simp only [h, if_true]
  · simp only [h, if_true]

theorem plainPower_keepsValue (b x : Expr) : KeepsValue r (pow b x) (plainPower b x) := by
  intro h
  obtain ⟨n, rfl⟩ := h.exponent_int
  have hb : Defined r b := ((defined_pow_int _ _).1 h).1
  unfold plainPower
  rw [if_neg (by simp [hb.ne_undefined])]
  by_cases h0 : n = 0
  · subst h0
    rw [if_pos (by simp [isZero])]
    exact ⟨defined_rat _, by simp [one]⟩
  rw [if_neg (by simpa [isZero] using h0)]
  by_cases h1 : n = 1
  · subst h1
    rw [if_pos (by simp [isOne])]
    exact ⟨hb, by simp⟩
  rw [if_neg (by simpa [isOne] using h1)]
  by_cases hb1 : b.isOne = true
  · rw [if_pos hb1, if_pos (by simp [isFinite, exist])]
    cases b <;> simp [isOne] at hb1
    exact ⟨defined_rat _, by simp [one, hb1]⟩
  rw [if_neg hb1]
  exact ⟨h, rfl⟩

/-- One round of the power keeps the value if the powers and products that it calls do, and if the product
multiplies two exponents exactly. -/
theorem powerStep_keepsValue {power : Expr → Expr → Expr} {product : List Expr → Expr}
    (hpow : ∀ b x, KeepsValue r (pow b x) (power b x))
    (hprod : ∀ fs, KeepsValue r (mul fs) (product fs))
    (hexp : ∀ m n : Rat, product [rat m, rat n] = rat (m * n)) (b x : Expr) :
    KeepsValue r (pow b x) (powerStep power product b x) := by
  intro h
  obtain ⟨n, rfl⟩ := h.exponent_int
  have hb : Defined r b := ((defined_pow_int _ _).1 h).1
  have hxinf : (rat (n : Rat)).infinitySign? = none := rfl
  have hbase := powerOfBase_keepsValue hpow hprod hexp b n
  by_cases hplain : (rat (n : Rat)).isZero = true ∨ (rat (n : Rat)).isOne = true ∨ b.isOne = true
  · rw [powerStep_eq_plainPower _ _ hplain]
    exact plainPower_keepsValue b _ h
  obtain ⟨h0, h1, hb1⟩ : (rat (n : Rat)).isZero ≠ true ∧ (rat (n : Rat)).isOne ≠ true ∧ b.isOne ≠ true := by
    simpa only [not_or] using hplain
  unfold powerStep
  rw [if_neg (by simp [hb.ne_undefined]), if_neg h0, if_neg h1, if_neg hb1, hxinf, hb.infinitySign?_eq_none]
  cases b with
  | rat p => exact rationalPower_keepsValue product p (by simpa [isZero] using h0) h
  | i => simp at hb
  | e => simp at hb
  | pi | infinity | undefined | var | add | mul | fn | pow => exact hbase h

/-! ## All rounds -/

theorem productWithin_rat_rat (n : Nat) (p q : Rat) :
    productWithin n [rat p, rat q] = rat (p * q) := by
  cases n with
  | zero => exact productStep_rat_rat _ _ p q
  | succ n => exact productStep_rat_rat _ _ p q

theorem within_keepsValue (r : Reading) (n : Nat) :
    (∀ fs, KeepsValue r (mul fs) (productWithin n fs)) ∧
      ∀ b x, KeepsValue r (pow b x) (powerWithin n b x) := by
  induction n with
  | zero => exact ⟨productStep_keepsValue plainPower_keepsValue plainProduct_keepsValue, plainPower_keepsValue⟩
  | succ n ih =>
    obtain ⟨hprod, hpow⟩ := ih
    exact ⟨productStep_keepsValue hpow hprod,
      powerStep_keepsValue hpow hprod (productWithin_rat_rat n)⟩

/-- A canonical product has the value of the product. -/
theorem product_keepsValue (r : Reading) (fs : List Expr) : KeepsValue r (mul fs) (product fs) :=
  (within_keepsValue r _).1 fs

/-- A canonical power has the value of the power. -/
theorem power_keepsValue (r : Reading) (b x : Expr) : KeepsValue r (pow b x) (power b x) :=
  (within_keepsValue r _).2 b x

/-! ## The three operations at an assignment -/

theorem sum_valueAt {ρ : String → Rat} {xs : List Expr} (h : ∀ x ∈ xs, DefinedAt ρ x) :
    DefinedAt ρ (sum xs) ∧ valueAt ρ (sum xs) = (xs.map (valueAt ρ)).sum := by
  obtain ⟨hd, hv⟩ := sum_keepsValue (.ofVars ρ) xs ((defined_add xs).2 h)
  exact ⟨hd, by rw [valueAt, hv, eval_add]⟩

theorem product_valueAt {ρ : String → Rat} {xs : List Expr} (h : ∀ x ∈ xs, DefinedAt ρ x) :
    DefinedAt ρ (product xs) ∧ valueAt ρ (product xs) = (xs.map (valueAt ρ)).prod := by
  obtain ⟨hd, hv⟩ := product_keepsValue (.ofVars ρ) xs ((defined_mul xs).2 h)
  exact ⟨hd, by rw [valueAt, hv, eval_mul]⟩

theorem power_valueAt {ρ : String → Rat} {b : Expr} {n : Int} (hb : DefinedAt ρ b)
    (hn : n < 0 → valueAt ρ b ≠ 0) :
    DefinedAt ρ (power b (rat n)) ∧ valueAt ρ (power b (rat n)) = valueAt ρ b ^ n := by
  have hpow : DefinedAt ρ (pow b (rat n)) :=
    (defined_pow_int b n).2 ⟨hb, (Int.lt_or_le n 0).symm.imp_right hn⟩
  obtain ⟨hd, hv⟩ := power_keepsValue (.ofVars ρ) b (rat n) hpow
  exact ⟨hd, by rw [valueAt, hv, eval_pow_int]⟩

/-- Wherever its operands have values, a canonical sum, product or whole power is defined and has the value of
the operation. The undefined value therefore comes out only where the operation has no value at any
assignment. -/
theorem canonical_operations_exact :
    (∀ (ρ : String → Rat) (xs : List Expr), (∀ x ∈ xs, DefinedAt ρ x) →
      DefinedAt ρ (sum xs) ∧ valueAt ρ (sum xs) = (xs.map (valueAt ρ)).sum) ∧
    (∀ (ρ : String → Rat) (xs : List Expr), (∀ x ∈ xs, DefinedAt ρ x) →
      DefinedAt ρ (product xs) ∧ valueAt ρ (product xs) = (xs.map (valueAt ρ)).prod) ∧
    (∀ (ρ : String → Rat) (b : Expr) (n : Int), DefinedAt ρ b → (n < 0 → valueAt ρ b ≠ 0) →
      DefinedAt ρ (power b (rat n)) ∧ valueAt ρ (power b (rat n)) = valueAt ρ b ^ n) ∧
    (∀ xs, sum xs = undefined → ∀ ρ, ¬ ∀ x ∈ xs, DefinedAt ρ x) ∧
    (∀ xs, product xs = undefined → ∀ ρ, ¬ ∀ x ∈ xs, DefinedAt ρ x) ∧
    (∀ (b : Expr) (n : Int), power b (rat n) = undefined →
      ∀ ρ, ¬ (DefinedAt ρ b ∧ (n < 0 → valueAt ρ b ≠ 0))) := by
  refine ⟨fun ρ xs => sum_valueAt, fun ρ xs => product_valueAt, fun ρ b n => power_valueAt, ?_, ?_, ?_⟩
  · intro xs hu ρ h
    exact (sum_valueAt h).1.ne_undefined hu
  · intro xs hu ρ h
    exact (product_valueAt h).1.ne_undefined hu
  · intro b n hu ρ h
    exact (power_valueAt h.1 h.2).1.ne_undefined hu

/-- With `x = 2`: the sum and the product of `x` and `1/x²`, the square of `1/x`, and the undefined reciprocal of
zero. -/
theorem canonical_operations_exact_at_two :
    (valueAt (fun _ => 2) (sum [var "x", pow (var "x") (rat (-2 : Int))]) = 9 / 4) ∧
    (valueAt (fun _ => 2) (product [var "x", pow (var "x") (rat (-2 : Int))]) = 1 / 2) ∧
    (valueAt (fun _ => 2) (power (pow (var "x") (rat (-1 : Int))) (rat (-2 : Int))) = 4) ∧
    (sum [undefined] = undefined ∧ ¬ ∀ x ∈ [undefined], DefinedAt (fun _ => 2) x) ∧
    (product [undefined] = undefined ∧ ¬ ∀ x ∈ [undefined], DefinedAt (fun _ => 2) x) ∧
    (power (rat 0) (rat (-1 : Int)) = undefined ∧
      ¬ (DefinedAt (fun _ => 2) (rat 0) ∧ ((-1 : Int) < 0 → valueAt (fun _ => 2) (rat 0) ≠ 0))) := by
  obtain ⟨hsum, hprod, hpow, hsumU, hprodU, hpowU⟩ := canonical_operations_exact
  have hd : ∀ x ∈ [var "x", pow (var "x") (rat (-2 : Int))], DefinedAt (fun _ => 2) x := by
    simp [DefinedAt, Reading.ofVars]
  have hi : DefinedAt (fun _ => 2) (pow (var "x") (rat (-1 : Int))) := by
    simp [DefinedAt, Reading.ofVars]
  have hs : sum [undefined] = undefined := by simp [sum, flattenTerms]
  have hp : product [undefined] = undefined := by
    obtain ⟨k, hk⟩ := roundsFor_eq (sizeAll [undefined])
    simp [product, hk, productWithin, productStep, flattenFactors]
  have hu : power (rat 0) (rat (-1 : Int)) = undefined := by decide
  refine ⟨?_, ?_, ?_, ⟨hs, hsumU _ hs _⟩, ⟨hp, hprodU _ hp _⟩, hu, hpowU (rat 0) (-1) hu _⟩
  · rw [(hsum _ _ hd).2]
    norm_num [valueAt, Reading.ofVars]
  · rw [(hprod _ _ hd).2]
    norm_num [valueAt, Reading.ofVars]
  · rw [(hpow _ _ (-2) hi (by norm_num [valueAt, Reading.ofVars])).2]
    norm_num [valueAt, Reading.ofVars]

end Expr

end SymbolicSolver
