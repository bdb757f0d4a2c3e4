import Mathlib.Algebra.Polynomial.RingDivision
import Mathlib.Topology.Algebra.Order.Field
import Mathlib.Topology.Algebra.Polynomial
import SymbolicSolver.Proofs.Canonical.Extended

/-!
# Leading terms

Just to the right of a point `a` a quotient of polynomials behaves like a power of `t - a` with a coefficient other than
zero. The power and the coefficient tell what it tends to, in every ordered field with its order topology, and the
logarithmic derivative tends to the exponent once it is multiplied by `t - a`. So a quotient of two such functions and
the quotient of their derivatives tend to the same, if both exponents have one sign.
-/

namespace SymbolicSolver

open Filter Topology
open Polynomial (aeval X C derivative rootMultiplicity)

/-! ## What a function tends to -/

section Tends

variable {𝕜 : Type*} [Field 𝕜] [LinearOrder 𝕜] [IsStrictOrderedRing 𝕜] [TopologicalSpace 𝕜] [OrderTopology 𝕜]
  [Algebra ℚ 𝕜]

/-- The filter of what lies close to an extended rational. -/
def Extended.nhds (𝕜 : Type*) [Field 𝕜] [LinearOrder 𝕜] [TopologicalSpace 𝕜] [Algebra ℚ 𝕜] : Extended → Filter 𝕜
  | number q => 𝓝 (algebraMap ℚ 𝕜 q)
  | posInf => atTop
  | negInf => atBot

variable {α : Type*} {F : Filter α} {f g : α → 𝕜} {l m s : Extended}

/-- A function tends to one extended rational at most. -/
theorem Extended.unique [F.NeBot] (hl : Tendsto f F (l.nhds 𝕜)) (hm : Tendsto f F (m.nhds 𝕜)) : l = m := by
  cases l <;> cases m <;> simp only [Extended.nhds] at hl hm
  case number.number p q => rw [(algebraMap ℚ 𝕜).injective (tendsto_nhds_unique hl hm)]
  case number.posInf => exact (not_tendsto_nhds_of_tendsto_atTop hm _ hl).elim
  case number.negInf => exact (not_tendsto_nhds_of_tendsto_atBot hm _ hl).elim
  case posInf.number => exact (not_tendsto_nhds_of_tendsto_atTop hl _ hm).elim
  case negInf.number => exact (not_tendsto_nhds_of_tendsto_atBot hl _ hm).elim
  case posInf.negInf => exact (hl.not_tendsto disjoint_atTop_atBot hm).elim
  case negInf.posInf => exact (hl.not_tendsto disjoint_atBot_atTop hm).elim
  all_goals rfl

theorem Extended.tendsto_add (hf : Tendsto f F (l.nhds 𝕜)) (hg : Tendsto g F (m.nhds 𝕜)) (h : l.add? m = some s) :
    Tendsto (fun t => f t + g t) F (s.nhds 𝕜) := by
  cases l <;> cases m <;> simp only [add?, Option.some.injEq, reduceCtorEq] at h <;> subst h <;>
    simp only [Extended.nhds] at hf hg ⊢
  case number.number p q => simpa only [map_add] using hf.add hg
  case number.posInf p => exact hf.add_atTop hg
  case number.negInf p => exact hf.add_atBot hg
  case posInf.number q => exact hf.atTop_add hg
  case negInf.number q => exact hf.atBot_add hg
  case posInf.posInf => exact hf.atTop_add_atTop hg
  case negInf.negInf => exact hf.atBot_add_atBot hg

/-- A factor that tends to a number other than zero keeps or turns the sign of an infinity. -/
theorem Extended.tendsto_scale {p : ℚ} (hp : p ≠ 0) (hf : Tendsto f F ((number p).nhds 𝕜)) (hm : m.isInfinite = true)
    (hg : Tendsto g F (m.nhds 𝕜)) : Tendsto (fun t => f t * g t) F ((signed (p * m.coeff)).nhds 𝕜) := by
  have hmap : algebraMap ℚ 𝕜 p = (p : 𝕜) := eq_ratCast _ p
  simp only [Extended.nhds, hmap] at hf
  cases m <;> simp only [isInfinite, Bool.false_eq_true] at hm <;> simp only [Extended.nhds, coeff] at hg ⊢ <;>
    rcases lt_or_gt_of_ne hp with hp | hp
  case posInf.inl =>
    rw [mul_one, signed_of_neg hp]
    exact hf.neg_mul_atTop (Rat.cast_lt_zero.2 hp) hg
  case posInf.inr =>
    rw [mul_one, signed_of_pos hp]
    exact hf.pos_mul_atTop (Rat.cast_pos.2 hp) hg
  case negInf.inl =>
    rw [mul_neg_one, signed_of_pos (neg_pos.2 hp)]
    exact hf.neg_mul_atBot (Rat.cast_lt_zero.2 hp) hg
  case negInf.inr =>
    rw [mul_neg_one, signed_of_neg (neg_neg_iff_pos.2 hp)]
    exact hf.pos_mul_atBot (Rat.cast_pos.2 hp) hg

theorem Extended.eq_number (h : l.isInfinite = false) : l = number l.coeff := by
  cases l <;> simp_all [isInfinite, coeff]

theorem Extended.tendsto_mul (hf : Tendsto f F (l.nhds 𝕜)) (hg : Tendsto g F (m.nhds 𝕜)) (h : l.mul? m = some s) :
    Tendsto (fun t => f t * g t) F (s.nhds 𝕜) := by
  obtain ⟨hl, hm, rfl⟩ | ⟨hinf, hne, rfl⟩ := mul?_eq_some h
  · rw [eq_number hl] at hf
    rw [eq_number hm] at hg
    simp only [Extended.nhds] at hf hg ⊢
    simpa only [map_mul] using hf.mul hg
  · cases hl : l.isInfinite with
    | false =>
      rw [eq_number hl] at hf
      exact tendsto_scale (left_ne_zero_of_mul hne) hf (hinf.resolve_left (by simp [hl])) hg
    | true =>
      cases hm : m.isInfinite with
      | false =>
        rw [eq_number hm] at hg
        simpa only [mul_comm] using tendsto_scale (right_ne_zero_of_mul hne) hg hl hf
      | true =>
        cases l <;> cases m <;> simp only [isInfinite, reduceCtorEq] at hl hm <;> simp only [Extended.nhds] at hf hg
        case posInf.posInf =>
          rw [signed_of_pos (by norm_num [coeff])]
          exact hf.atTop_mul_atTop₀ hg
        case posInf.negInf =>
          rw [signed_of_neg (by norm_num [coeff])]
          exact hf.atTop_mul_atBot₀ hg
        case negInf.posInf =>
          rw [signed_of_neg (by norm_num [coeff])]
          exact hf.atBot_mul_atTop₀ hg
        case negInf.negInf =>
          rw [signed_of_pos (by norm_num [coeff])]
          exact hf.atBot_mul_atBot₀ hg

theorem Extended.tendsto_sum {β : Type*} {v : β → α → 𝕜} {bs : List β} {ls : List Extended}
    (h : List.Forall₂ (fun b l => Tendsto (v b) F (l.nhds 𝕜)) bs ls) (hs : sum? ls = some s) :
    Tendsto (fun t => (bs.map (v · t)).sum) F (s.nhds 𝕜) := by
  induction h generalizing s with
  | nil =>
    obtain rfl := Option.some.inj hs
    simpa [Extended.nhds] using tendsto_const_nhds
  | cons hb _ ih =>
    rw [sum?_cons, Option.bind_eq_some_iff] at hs
    obtain ⟨r, hr, hs⟩ := hs
    simpa using tendsto_add hb (ih hr) hs

theorem Extended.tendsto_product {β : Type*} {v : β → α → 𝕜} {bs : List β} {ls : List Extended}
    (h : List.Forall₂ (fun b l => Tendsto (v b) F (l.nhds 𝕜)) bs ls) (hs : product? ls = some s) :
    Tendsto (fun t => (bs.map (v · t)).prod) F (s.nhds 𝕜) := by
  induction h generalizing s with
  | nil =>
    obtain rfl := Option.some.inj hs
    simpa [Extended.nhds] using tendsto_const_nhds
  | cons hb _ ih =>
    rw [product?_cons, Option.bind_eq_some_iff] at hs
    obtain ⟨r, hr, hs⟩ := hs
    simpa using tendsto_mul hb (ih hr) hs

/-- The reciprocal of what tends to an infinity tends to zero. -/
theorem Extended.tendsto_inv (hl : l.isInfinite = true) (hf : Tendsto f F (l.nhds 𝕜)) :
    Tendsto (fun t => (f t)⁻¹) F ((number 0).nhds 𝕜) := by
  simp only [Extended.nhds, map_zero]
  cases l with
  | number q => cases hl
  | posInf => exact hf.inv_tendsto_atTop
  | negInf => exact hf.inv_tendsto_atBot

end Tends

/-! ## Leading terms -/

section Lead

variable {𝕜 : Type*} [Field 𝕜] [LinearOrder 𝕜] [TopologicalSpace 𝕜]

/-- Just to the right of `a` a function behaves like `c (t - a) ^ m`. -/
structure HasLead (f : 𝕜 → 𝕜) (a : 𝕜) (m : ℤ) (c : 𝕜) : Prop where
  ne_zero : c ≠ 0
  tendsto : Tendsto (fun t => f t / (t - a) ^ m) (𝓝[>] a) (𝓝 c)

variable {f g f' g' : 𝕜 → 𝕜} {a c d : 𝕜} {m k : ℤ}

theorem eventually_sub_ne_zero (a : 𝕜) : ∀ᶠ t in 𝓝[>] a, t - a ≠ 0 :=
  eventually_nhdsWithin_of_forall fun _ ht => sub_ne_zero.2 (ne_of_gt ht)

theorem HasLead.congr (hf : HasLead f a m c) (h : f =ᶠ[𝓝[>] a] g) : HasLead g a m c where
  ne_zero := hf.ne_zero
  tendsto := hf.tendsto.congr' (h.mono fun t ht => by rw [ht])

variable [IsStrictOrderedRing 𝕜] [OrderTopology 𝕜]

theorem HasLead.div (hf : HasLead f a m c) (hg : HasLead g a k d) :
    HasLead (fun t => f t / g t) a (m - k) (c / d) where
  ne_zero := div_ne_zero hf.ne_zero hg.ne_zero
  tendsto := by
    refine (hf.tendsto.div hg.tendsto hg.ne_zero).congr' ((eventually_sub_ne_zero a).mono fun t ht => ?_)
    change f t / (t - a) ^ m / (g t / (t - a) ^ k) = f t / g t / (t - a) ^ (m - k)
    rw [zpow_sub₀ ht, div_div_div_comm]

omit [IsStrictOrderedRing 𝕜] in
/-- What has a leading term is not zero close to the point. -/
theorem HasLead.eventually_ne (hf : HasLead f a m c) : ∀ᶠ t in 𝓝[>] a, f t ≠ 0 := by
  filter_upwards [hf.tendsto.eventually_ne hf.ne_zero] with t ht h0
  rw [h0, zero_div] at ht
  exact ht rfl

theorem tendsto_sub_right (a : 𝕜) : Tendsto (fun t => t - a) (𝓝[>] a) (𝓝[>] 0) := by
  refine tendsto_nhdsWithin_iff.2 ⟨?_, eventually_nhdsWithin_of_forall fun t ht => sub_pos.2 ht⟩
  have hid : Tendsto (fun t : 𝕜 => t) (𝓝[>] a) (𝓝 a) := tendsto_id.mono_left nhdsWithin_le_nhds
  simpa using hid.sub_const a

variable [Algebra ℚ 𝕜]

/-- What the power of the distance tends to. -/
def distanceLimit (m : ℤ) : Extended := if 0 < m then .number 0 else if m = 0 then .number 1 else .posInf

theorem tendsto_distance (a : 𝕜) (m : ℤ) :
    Tendsto (fun t => (t - a) ^ m) (𝓝[>] a) ((distanceLimit m).nhds 𝕜) := by
  unfold distanceLimit
  split
  · rename_i hm
    obtain ⟨j, rfl⟩ := Int.eq_ofNat_of_zero_le hm.le
    have hj : j ≠ 0 := by omega
    simp only [Extended.nhds, map_zero, zpow_natCast]
    simpa [zero_pow hj] using ((tendsto_sub_right a).mono_right nhdsWithin_le_nhds).pow j
  · split
    · rename_i hm
      simp only [hm, Extended.nhds, map_one, zpow_zero]
      exact tendsto_const_nhds
    · obtain ⟨j, rfl⟩ : ∃ j : ℕ, m = -j := ⟨m.natAbs, by omega⟩
      have hj : j ≠ 0 := by omega
      simp only [Extended.nhds, zpow_neg, zpow_natCast, ← inv_pow]
      exact (tendsto_pow_atTop hj).comp (tendsto_inv_nhdsGT_zero.comp (tendsto_sub_right a))

/-- What a function with a leading term tends to. -/
def leadLimit (m : ℤ) (c : ℚ) : Extended := if 0 < m then .number 0 else if m = 0 then .number c else .signed c

theorem leadLimit_of_pos (hm : 0 < m) (c : ℚ) : leadLimit m c = .number 0 := if_pos hm

theorem leadLimit_of_neg (hm : m < 0) (c : ℚ) : leadLimit m c = .signed c := by
  rw [leadLimit, if_neg hm.le.not_gt, if_neg hm.ne]

theorem pos_of_leadLimit {c : ℚ} (hc : c ≠ 0) (h : leadLimit m c = .number 0) : 0 < m := by
  unfold leadLimit Extended.signed at h
  split at h
  · assumption
  · split at h
    · exact (hc (Extended.number.inj h)).elim
    · split at h <;> cases h

theorem neg_of_leadLimit {c : ℚ} (h : (leadLimit m c).isInfinite = true) : m < 0 := by
  unfold leadLimit at h
  split at h
  · cases h
  · split at h
    · cases h
    · omega

theorem HasLead.tendsto_leadLimit {c : ℚ} (hf : HasLead f a m (algebraMap ℚ 𝕜 c)) :
    Tendsto f (𝓝[>] a) ((leadLimit m c).nhds 𝕜) := by
  have hc : c ≠ 0 := fun h => hf.ne_zero (by rw [h, map_zero])
  have hmul : (Extended.number c).mul? (distanceLimit m) = some (leadLimit m c) := by
    unfold distanceLimit leadLimit Extended.mul?
    split
    · simp [Extended.isInfinite, Extended.coeff]
    · split <;> simp [Extended.isInfinite, Extended.coeff, hc]
  have hlead : Tendsto (fun t => f t / (t - a) ^ m) (𝓝[>] a) ((Extended.number c).nhds 𝕜) := hf.tendsto
  refine (Extended.tendsto_mul hlead (tendsto_distance a m) hmul).congr' ?_
  filter_upwards [eventually_sub_ne_zero a] with t ht
  exact div_mul_cancel₀ _ (zpow_ne_zero m ht)

/-! ### Quotients of derivatives -/

theorem leadLimit_mul_ratio {m k : ℤ} (h : 0 < m ∧ 0 < k ∨ m < 0 ∧ k < 0) {c : ℚ} (hc : c ≠ 0) :
    (leadLimit (m - k) c).mul? (.number (m / k)) = some (leadLimit (m - k) c) := by
  have hratio : (0 : ℚ) < m / k := by
    rcases h with ⟨hm, hk⟩ | ⟨hm, hk⟩
    · exact div_pos (by exact_mod_cast hm) (by exact_mod_cast hk)
    · exact div_pos_of_neg_of_neg (by exact_mod_cast hm) (by exact_mod_cast hk)
  have hone : m - k = 0 → (m : ℚ) / k = 1 := by
    intro hmk
    have hk : (k : ℚ) ≠ 0 := by
      rintro h0
      rw [h0, div_zero] at hratio
      exact hratio.false
    rw [sub_eq_zero.1 hmk, div_self hk]
  unfold leadLimit
  split
  · simp [Extended.mul?, Extended.isInfinite, Extended.coeff]
  · split
    · rename_i hmk
      simp [Extended.mul?, Extended.isInfinite, Extended.coeff, hone hmk]
    · rcases lt_or_gt_of_ne hc with hc | hc
      · rw [Extended.signed_of_neg hc]
        simp [Extended.mul?, Extended.isInfinite, Extended.coeff, hratio.ne',
          Extended.signed_of_neg (neg_neg_of_pos hratio)]
      · rw [Extended.signed_of_pos hc]
        simp [Extended.mul?, Extended.isInfinite, Extended.coeff, hratio.ne', Extended.signed_of_pos hratio]

/-- The quotient of the derivatives tends to what the quotient tends to, if the functions both vanish or both have
poles. -/
theorem HasLead.derivatives_tendsto {c d : ℚ} (hf : HasLead f a m (algebraMap ℚ 𝕜 c))
    (hg : HasLead g a k (algebraMap ℚ 𝕜 d)) (hf' : Tendsto (fun t => (t - a) * f' t / f t) (𝓝[>] a) (𝓝 (m : 𝕜)))
    (hg' : Tendsto (fun t => (t - a) * g' t / g t) (𝓝[>] a) (𝓝 (k : 𝕜)))
    (h : 0 < m ∧ 0 < k ∨ m < 0 ∧ k < 0) :
    Tendsto (fun t => f' t / g' t) (𝓝[>] a) ((leadLimit (m - k) (c / d)).nhds 𝕜) := by
  have hcd : c / d ≠ 0 := by
    refine div_ne_zero (fun h0 => hf.ne_zero ?_) fun h0 => hg.ne_zero ?_ <;> rw [h0, map_zero]
  have hk : (k : 𝕜) ≠ 0 := by
    rw [Int.cast_ne_zero]
    omega
  have hratio : Tendsto (fun t => (t - a) * f' t / f t / ((t - a) * g' t / g t)) (𝓝[>] a)
      ((Extended.number (m / k)).nhds 𝕜) := by
    simp only [Extended.nhds, map_div₀, map_intCast]
    exact hf'.div hg' hk
  have hquotient : HasLead (fun t => f t / g t) a (m - k) (algebraMap ℚ 𝕜 (c / d)) := by
    rw [map_div₀]
    exact hf.div hg
  refine (Extended.tendsto_mul hquotient.tendsto_leadLimit hratio (leadLimit_mul_ratio h hcd)).congr' ?_
  filter_upwards [eventually_sub_ne_zero a, hf.eventually_ne, hg.eventually_ne] with t ht hft hgt
  by_cases h0 : g' t = 0
  · simp [h0]
  · field_simp

/-! ### Quotients of polynomials -/

section Quotient

variable {n d p : Polynomial ℚ}

theorem tendsto_aeval_right (p : Polynomial ℚ) (a : ℚ) :
    Tendsto (fun t : 𝕜 => aeval t p) (𝓝[>] (algebraMap ℚ 𝕜 a)) (𝓝 (algebraMap ℚ 𝕜 (p.eval a))) := by
  rw [← Polynomial.aeval_algebraMap_apply_eq_algebraMap_eval]
  exact (p.continuous_aeval.tendsto _).mono_left nhdsWithin_le_nhds

variable (𝕜) in
/-- The exponent of the leading term of a polynomial is the multiplicity of the root. -/
theorem hasLead_aeval (a : ℚ) (hp : p ≠ 0) : ∃ (m : ℤ) (c : ℚ),
    HasLead (fun t : 𝕜 => aeval t p) (algebraMap ℚ 𝕜 a) m (algebraMap ℚ 𝕜 c) ∧
      Tendsto (fun t : 𝕜 => (t - algebraMap ℚ 𝕜 a) * aeval t (derivative p) / aeval t p) (𝓝[>] (algebraMap ℚ 𝕜 a))
        (𝓝 (m : 𝕜)) := by
  obtain ⟨q, hq, hroot⟩ := Polynomial.exists_eq_pow_rootMultiplicity_mul_and_not_dvd p hp a
  rw [Polynomial.dvd_iff_isRoot] at hroot
  generalize rootMultiplicity a p = m at hq
  subst hq
  have hqa : algebraMap ℚ 𝕜 (q.eval a) ≠ 0 := by simpa using hroot
  have hvalue (t : 𝕜) : aeval t ((X - C a) ^ m * q) = (t - algebraMap ℚ 𝕜 a) ^ m * aeval t q := by simp
  have hlead : HasLead (fun t : 𝕜 => aeval t ((X - C a) ^ m * q)) (algebraMap ℚ 𝕜 a) m (algebraMap ℚ 𝕜 (q.eval a)) := by
    refine ⟨hqa, (tendsto_aeval_right q a).congr' ?_⟩
    filter_upwards [eventually_sub_ne_zero (algebraMap ℚ 𝕜 a)] with t ht
    rw [hvalue, zpow_natCast, mul_div_cancel_left₀ _ (pow_ne_zero m ht)]
  refine ⟨m, q.eval a, hlead, ?_⟩
  -- The first factor gives the multiplicity, and what the other one adds tends to zero.
  have hrest : Tendsto (fun t : 𝕜 => (t - algebraMap ℚ 𝕜 a) * (aeval t (derivative q) / aeval t q))
      (𝓝[>] (algebraMap ℚ 𝕜 a)) (𝓝 0) := by
    have hprod := ((tendsto_sub_right (algebraMap ℚ 𝕜 a)).mono_right nhdsWithin_le_nhds).mul
      ((tendsto_aeval_right (derivative q) a).div (tendsto_aeval_right q a) hqa)
    rwa [zero_mul] at hprod
  have hsum := hrest.const_add (m : 𝕜)
  rw [add_zero] at hsum
  rw [Int.cast_natCast]
  refine hsum.congr' ?_
  filter_upwards [eventually_sub_ne_zero (algebraMap ℚ 𝕜 a), (tendsto_aeval_right q a).eventually_ne hqa] with t ht hqt
  rw [hvalue]
  cases m with
  | zero => simp [mul_div_assoc]
  | succ m =>
    have hderiv : aeval t (derivative ((X - C a) ^ (m + 1) * q)) =
        (m + 1) * (t - algebraMap ℚ 𝕜 a) ^ m * aeval t q +
          (t - algebraMap ℚ 𝕜 a) ^ (m + 1) * aeval t (derivative q) := by
      simp [Polynomial.derivative_mul, Polynomial.derivative_pow]
    rw [hderiv]
    push_cast
    field_simp
    ring

variable (𝕜) in
/-- A quotient of polynomials has a leading term, and its exponent is the limit of the logarithmic derivative times the
distance. -/
theorem hasLead_quotient (a : ℚ) (hn : n ≠ 0) (hd : d ≠ 0) : ∃ (m : ℤ) (c : ℚ),
    HasLead (fun t : 𝕜 => aeval t n / aeval t d) (algebraMap ℚ 𝕜 a) m (algebraMap ℚ 𝕜 c) ∧
      Tendsto (fun t : 𝕜 => (t - algebraMap ℚ 𝕜 a) *
        ((aeval t (derivative n) * aeval t d - aeval t n * aeval t (derivative d)) / aeval t d ^ 2) /
          (aeval t n / aeval t d)) (𝓝[>] (algebraMap ℚ 𝕜 a)) (𝓝 (m : 𝕜)) := by
  obtain ⟨m, c, hlead, hlog⟩ := hasLead_aeval 𝕜 a hn
  obtain ⟨k, e, hlead', hlog'⟩ := hasLead_aeval 𝕜 a hd
  refine ⟨m - k, c / e, ?_, ?_⟩
  · rw [map_div₀]
    exact hlead.div hlead'
  · rw [Int.cast_sub]
    refine (hlog.sub hlog').congr' ?_
    filter_upwards [hlead.eventually_ne, hlead'.eventually_ne] with t hnt hdt
    field_simp

end Quotient

end Lead

end SymbolicSolver
