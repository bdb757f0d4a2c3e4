import Mathlib

/-!
# Rounding to doubles

The operations on floats are integer operations on mantissas with two more bits, which say how what was cut off compares
with a half. Here these are read as rationals: a mantissa with its bits is determined by the rational that it stands
for, and so is the float that a rational is rounded to.
-/

namespace SymbolicSolver.Double

open Float.Model Float.Model.UnpackedFloat

/-! ## Mantissas -/

/-- The whole part of a rational, whether at least a half is left, and whether anything else is left. -/
def extended (w : Rat) : ExtendedMantissa :=
  ⟨⌊w⌋₊, decide (⌊2 * w⌋₊ % 2 = 1), decide ((⌊2 * w⌋₊ : Rat) ≠ 2 * w)⟩

theorem shiftRightOne_extended (w : Rat) : (extended w).shiftRightOne = extended (w / 2) := by
  have htwo : 2 * (w / 2) = w := by ring
  have hfloor : ⌊w / 2⌋₊ = ⌊w⌋₊ / 2 := Nat.floor_div_ofNat w 2
  have hdouble : (⌊2 * w⌋₊ % 2 = 1 ∨ (⌊2 * w⌋₊ : Rat) ≠ 2 * w) ↔ (⌊w⌋₊ : Rat) ≠ w := by
    constructor
    · rintro h hwhole
      have hcast : 2 * w = ((2 * ⌊w⌋₊ : ℕ) : Rat) := by
        push_cast
        rw [hwhole]
      rw [hcast, Nat.floor_natCast] at h
      rcases h with h | h
      · omega
      · exact h rfl
    · intro h
      by_contra! hneg
      obtain ⟨heven, hwhole⟩ := hneg
      have hdvd : 2 * (⌊2 * w⌋₊ / 2) = ⌊2 * w⌋₊ := by omega
      have hhalf : w = ((⌊2 * w⌋₊ / 2 : ℕ) : Rat) := by
        have hcast : (2 : Rat) * ((⌊2 * w⌋₊ / 2 : ℕ) : Rat) = 2 * w := by
          rw [← hwhole]
          exact_mod_cast hdvd
        linarith
      exact h (by rw [hhalf, Nat.floor_natCast])
  rw [ExtendedMantissa.shiftRightOne, extended, extended, htwo, hfloor]
  congr 1
  · rw [Bool.eq_iff_iff]
    simp
  · rw [Bool.eq_iff_iff]
    simpa using hdouble

theorem shiftRight_extended (w : Rat) (n : Nat) : extended w >>> n = extended (w / 2 ^ n) := by
  change n.repeat ExtendedMantissa.shiftRightOne (extended w) = _
  induction n with
  | zero => simp [Nat.repeat]
  | succ n ih =>
    rw [Nat.repeat, ih, shiftRightOne_extended, pow_succ, div_div]

theorem extended_natCast (m : Nat) : extended m = ⟨m, false, false⟩ := by
  have hcast : 2 * (m : Rat) = ((2 * m : ℕ) : Rat) := by push_cast; rfl
  rw [extended, hcast, Nat.floor_natCast, Nat.floor_natCast]
  simp

/-- The remainder of a division is what was cut off. -/
theorem ofMantissaAndAccuracy_div (a : Nat) {b : Nat} (hb : 0 < b) :
    ExtendedMantissa.ofMantissaAndAccuracy (a / b) (accuracyOfFraction (a % b) b) = extended ((a : Rat) / b) := by
  have hcast : 2 * ((a : Rat) / b) = ((2 * a : ℕ) : Rat) / b := by push_cast; ring
  have hlt := Nat.mod_lt a hb
  have hsplit : 2 * a = 2 * (a % b) + b * (2 * (a / b)) := by
    conv_lhs => rw [← Nat.mod_add_div a b]
    ring
  have hround : 2 * a / b % 2 = 2 * (a % b) / b % 2 := by
    rw [hsplit, Nat.add_mul_div_left _ _ hb, Nat.add_mul_mod_self_left]
  have hdvd : b ∣ 2 * a ↔ b ∣ 2 * (a % b) := by
    rw [hsplit]
    exact Nat.dvd_add_left (Nat.dvd_mul_right _ _)
  have hwhole : ((2 * a / b : ℕ) : Rat) = ((2 * a : ℕ) : Rat) / b ↔ b ∣ 2 * (a % b) := by
    rw [← hdvd]
    refine ⟨fun h => ?_, fun h => Nat.cast_div_charZero h⟩
    rw [eq_div_iff (by exact_mod_cast hb.ne')] at h
    exact Dvd.intro_left (2 * a / b) (by exact_mod_cast h)
  rw [extended, hcast, Nat.floor_div_eq_div, Nat.floor_div_eq_div, hround]
  simp only [ne_eq, hwhole]
  unfold accuracyOfFraction
  by_cases hzero : a % b = 0
  · simp [hzero, ExtendedMantissa.ofMantissaAndAccuracy]
  · rw [if_neg hzero]
    rcases lt_trichotomy (2 * (a % b)) b with h | h | h
    · have hdiv : 2 * (a % b) / b = 0 := Nat.div_eq_of_lt h
      have hnot : ¬ b ∣ 2 * (a % b) := fun hd => absurd (Nat.le_of_dvd (by omega) hd) (by omega)
      simp [Nat.compare_eq_lt.2 h, hdiv, hnot, ExtendedMantissa.ofMantissaAndAccuracy]
    · simp [h, Nat.div_self hb, ExtendedMantissa.ofMantissaAndAccuracy]
    · have hdiv : 2 * (a % b) / b = 1 := Nat.div_eq_of_lt_le (by omega) (by omega)
      have hnot : ¬ b ∣ 2 * (a % b) := by
        rintro ⟨k, hk⟩
        rw [hk, Nat.mul_div_cancel_left _ hb] at hdiv
        rw [hdiv, mul_one] at hk
        omega
      simp [Nat.compare_eq_gt.2 h, hdiv, hnot, ExtendedMantissa.ofMantissaAndAccuracy]

/-! ## The float nearest to a rational -/

/-- The exponent of the float that a positive rational is rounded to, unless rounding carries. -/
def place (v : Rat) : Int := max (Int.log 2 v - 52) (-1074)

/-- A rounded mantissa, shifted once more if rounding carried. -/
def finish (s : Sign) (r : Nat) (t : Int) : UnpackedFloat :=
  let shifted := shiftToTargetExponent Format.binary64 r t .exact
  if h : shifted.1.mantissa = 0 then .zero s
  else .finite s shifted.1.mantissa shifted.2 (Nat.pos_of_ne_zero h)

/-- The float nearest to a positive rational, with a sign. -/
def nearest (s : Sign) (v : Rat) : UnpackedFloat :=
  finish s (extended (v / 2 ^ place v)).roundedMantissa (place v)

theorem targetExponent_eq (t : Int) : Format.binary64.targetExponent t = max (t - 53) (-1074) := rfl

theorem log_mul_zpow {m : Nat} (hm : 0 < m) {w : Rat} (hw : ⌊w⌋₊ = m) (e : Int) :
    Int.log 2 (w * 2 ^ e) = m.log2 + e := by
  have hw0 : 0 < w := by
    by_contra! h
    rw [Nat.floor_of_nonpos h] at hw
    omega
  obtain ⟨hle, hlt⟩ := (Nat.floor_eq_iff hw0.le).1 hw
  have hpos : 0 < w * 2 ^ e := by positivity
  have hlow : (2 : Rat) ^ ((m.log2 : Int) + e) ≤ w * 2 ^ e := by
    rw [zpow_add₀ two_ne_zero, zpow_natCast]
    refine mul_le_mul_of_nonneg_right (le_trans ?_ hle) (by positivity)
    exact_mod_cast Nat.log2_self_le hm.ne'
  have hhigh : w * 2 ^ e < (2 : Rat) ^ ((m.log2 : Int) + e + 1) := by
    rw [add_right_comm, zpow_add₀ two_ne_zero]
    refine mul_lt_mul_of_pos_right (hlt.trans_le ?_) (by positivity)
    exact_mod_cast Nat.lt_log2_self (n := m)
  refine le_antisymm ?_ ((Int.zpow_le_iff_le_log one_lt_two hpos).1 hlow)
  exact Int.lt_add_one_iff.1 ((Int.lt_zpow_iff_log_lt one_lt_two hpos).1 hhigh)

theorem targetExponent_totalExponent {m : Nat} (hm : 0 < m) {w : Rat} (hw : ⌊w⌋₊ = m) (e : Int) :
    Format.binary64.targetExponent (totalExponent m e) = place (w * 2 ^ e) := by
  rw [targetExponent_eq, place, log_mul_zpow hm hw, totalExponent]
  omega

/-- Rounding a mantissa of which the bits that were cut off are known. -/
theorem roundWithAccuracy_eq (s : Sign) {m : Nat} (hm : 0 < m) {e : Int} {acc : Accuracy} {w : Rat} (hw : ⌊w⌋₊ = m)
    (hacc : ExtendedMantissa.ofMantissaAndAccuracy m acc = extended w) (he : e ≤ place (w * 2 ^ e)) :
    roundWithAccuracy Format.binary64 s m e acc = nearest s (w * 2 ^ e) := by
  have htarget := targetExponent_totalExponent hm hw e
  obtain ⟨k, hk⟩ := Int.eq_ofNat_of_zero_le (sub_nonneg.2 he)
  have hshift : shiftToTargetExponent Format.binary64 m e acc =
      (extended (w * 2 ^ e / 2 ^ place (w * 2 ^ e)), place (w * 2 ^ e)) := by
    have hexp : place (w * 2 ^ e) = e + k := by omega
    have hvalue : w * 2 ^ e / 2 ^ place (w * 2 ^ e) = w / 2 ^ k := by
      rw [hexp, zpow_add₀ two_ne_zero, zpow_natCast, mul_comm ((2 : Rat) ^ e), mul_div_mul_right _ _ (by positivity)]
    rw [shiftToTargetExponent, htarget, shiftToExponent, hk, hacc, hvalue, hexp, ← shiftRight_extended]
    rfl
  rw [roundWithAccuracy, hshift]
  rfl

theorem round_eq (s : Sign) {m : Nat} (hm : 0 < m) (e : Int) :
    UnpackedFloat.round Format.binary64 s m e = nearest s (m * 2 ^ e) := by
  have htarget := targetExponent_totalExponent hm (Nat.floor_natCast m) e
  have hround : UnpackedFloat.round Format.binary64 s m e = roundWithAccuracy Format.binary64 s
      (m <<< (e - place (m * 2 ^ e)).toNat) (e - (e - place (m * 2 ^ e)).toNat) .exact := by
    unfold UnpackedFloat.round
    rw [htarget]
    rfl
  generalize hk : (e - place (m * 2 ^ e)).toNat = k at hround
  have hcast : ((m <<< k : ℕ) : Rat) = m * 2 ^ k := by
    rw [Nat.shiftLeft_eq]
    push_cast
    rfl
  have hvalue : ((m <<< k : ℕ) : Rat) * 2 ^ (e - k) = m * 2 ^ e := by
    rw [hcast, mul_assoc, ← zpow_natCast, ← zpow_add₀ two_ne_zero, add_sub_cancel]
  have hpos : 0 < m <<< k := by
    rw [Nat.shiftLeft_eq]
    positivity
  rw [hround, ← hvalue]
  refine roundWithAccuracy_eq s hpos (Nat.floor_natCast _) ?_ ?_
  · rw [extended_natCast]
    rfl
  · rw [hvalue]
    omega

/-! ## Mantissas and exponents as they stand in a float -/

/-- A mantissa with all its bits, unless the exponent is the lowest. -/
structure Canonical (m : Nat) (e : Int) : Prop where
  pos : 0 < m
  lt : m < 2 ^ 53
  low : -1074 ≤ e
  full : 2 ^ 52 ≤ m ∨ e = -1074

theorem Canonical.log {m : Nat} {e : Int} (h : Canonical m e) : max ((m.log2 : Int) + e - 52) (-1074) = e := by
  have hlt := (Nat.log2_lt h.pos.ne').2 h.lt
  have hlow := h.low
  rcases h.full with hfull | hfull
  · have hle := (Nat.le_log2 h.pos.ne').2 hfull
    omega
  · omega

theorem Canonical.place {m : Nat} {e : Int} (h : Canonical m e) : place (m * 2 ^ e) = e := by
  rw [Double.place, log_mul_zpow h.pos (Nat.floor_natCast m), h.log]

theorem shiftToTargetExponent_exact (m : Nat) {t : Int} {k : Nat}
    (hk : (Format.binary64.targetExponent (totalExponent m t) - t).toNat = k) :
    shiftToTargetExponent Format.binary64 m t .exact = (extended ((m : Rat) / 2 ^ k), t + k) := by
  rw [shiftToTargetExponent, shiftToExponent, hk, ← shiftRight_extended, extended_natCast]
  rfl

/-- Without a carry the rounded mantissa stands as it is. -/
theorem finish_of_lt (s : Sign) {r : Nat} {t : Int} (hpos : 0 < r) (hlt : r < 2 ^ 53) (ht : -1074 ≤ t) :
    finish s r t = .finite s r t hpos := by
  have hlog := (Nat.log2_lt hpos.ne').2 hlt
  have hk : (Format.binary64.targetExponent (totalExponent r t) - t).toNat = 0 := by
    rw [targetExponent_eq, totalExponent]
    omega
  have hshift : shiftToTargetExponent Format.binary64 r t .exact = (⟨r, false, false⟩, t) := by
    rw [shiftToTargetExponent_exact _ hk, pow_zero, div_one, extended_natCast]
    simp
  unfold finish
  simp only [hshift]
  exact dif_neg hpos.ne'

theorem finish_carry (s : Sign) {t : Int} (ht : -1074 ≤ t) :
    finish s (2 ^ 53) t = .finite s (2 ^ 52) (t + 1) (by decide) := by
  have hk : (Format.binary64.targetExponent (totalExponent (2 ^ 53) t) - t).toNat = 1 := by
    rw [targetExponent_eq, totalExponent, Nat.log2_two_pow]
    omega
  have hhalf : ((2 ^ 53 : ℕ) : Rat) / 2 ^ 1 = ((2 ^ 52 : ℕ) : Rat) := by norm_num
  have hshift : shiftToTargetExponent Format.binary64 (2 ^ 53) t .exact = (⟨2 ^ 52, false, false⟩, t + 1) := by
    rw [shiftToTargetExponent_exact _ hk, hhalf, extended_natCast]
    rfl
  unfold finish
  simp only [hshift]
  exact dif_neg (by decide)

theorem finish_zero (s : Sign) (t : Int) : finish s 0 t = .zero s := by
  have hshift := shiftToTargetExponent_exact 0 (t := t) rfl
  unfold finish
  simp only [hshift, Nat.cast_zero, zero_div]
  exact dif_pos (Nat.floor_zero (R := Rat))

/-- What a float holds is rounded to itself. -/
theorem Canonical.nearest_eq {m : Nat} {e : Int} (h : Canonical m e) (s : Sign) :
    nearest s (m * 2 ^ e) = .finite s m e h.pos := by
  rw [nearest, h.place, mul_div_cancel_right₀ _ (by positivity), extended_natCast]
  exact finish_of_lt s h.pos h.lt h.low

/-- Rounding goes to one of the two neighbours. -/
theorem roundedMantissa_bounds (em : ExtendedMantissa) :
    em.mantissa ≤ em.roundedMantissa ∧ em.roundedMantissa ≤ em.mantissa + 1 := by
  obtain ⟨m, _ | _, _ | _⟩ := em <;>
    simp only [ExtendedMantissa.roundedMantissa, ExtendedMantissa.accuracy, Accuracy.roundToNearestEven] <;> omega

/-- A rounded rational is zero or has a canonical mantissa, with an exponent that may be too large for a float. -/
theorem nearest_canonical (s : Sign) {v : Rat} (hv : 0 < v) :
    nearest s v = .zero s ∨ ∃ m e, ∃ h : Canonical m e, nearest s v = .finite s m e h.pos := by
  rw [nearest]
  have hlow : -1074 ≤ Double.place v := le_max_right _ _
  have hlt : ⌊v / 2 ^ Double.place v⌋₊ < 2 ^ 53 := by
    rw [Nat.floor_lt (by positivity), div_lt_iff₀ (by positivity)]
    have hpow : v < ((2 : ℕ) : Rat) ^ (53 + Double.place v) :=
      (Int.lt_zpow_iff_log_lt one_lt_two hv).2 (by rw [Double.place]; omega)
    rw [Nat.cast_two, zpow_add₀ two_ne_zero] at hpow
    exact_mod_cast hpow
  have hfull : 2 ^ 52 ≤ ⌊v / 2 ^ Double.place v⌋₊ ∨ Double.place v = -1074 := by
    by_cases hmin : Double.place v = -1074
    · exact .inr hmin
    · refine .inl (Nat.le_floor ?_)
      rw [le_div_iff₀ (by positivity)]
      have hpow : ((2 : ℕ) : Rat) ^ (52 + Double.place v) ≤ v :=
        (Int.zpow_le_iff_le_log one_lt_two hv).2 (by rw [Double.place] at hmin ⊢; omega)
      rw [Nat.cast_two, zpow_add₀ two_ne_zero] at hpow
      exact_mod_cast hpow
  obtain ⟨hge, hle⟩ := roundedMantissa_bounds (extended (v / 2 ^ Double.place v))
  generalize (extended (v / 2 ^ Double.place v)).roundedMantissa = r at hge hle
  generalize Double.place v = t at *
  change ⌊v / 2 ^ t⌋₊ ≤ r at hge
  change r ≤ ⌊v / 2 ^ t⌋₊ + 1 at hle
  rcases Nat.eq_zero_or_pos r with rfl | hpos
  · exact .inl (finish_zero s t)
  rcases (show r < 2 ^ 53 ∨ r = 2 ^ 53 by omega) with hsmall | rfl
  · exact .inr ⟨r, t, ⟨hpos, hsmall, hlow, hfull.imp_left fun h => h.trans hge⟩, finish_of_lt s hpos hsmall hlow⟩
  · exact .inr ⟨2 ^ 52, t + 1, ⟨by decide, by decide, by omega, .inl le_rfl⟩, finish_carry s hlow⟩

end SymbolicSolver.Double
