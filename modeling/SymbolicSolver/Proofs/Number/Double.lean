import SymbolicSolver.Number.ComplexFloat
import SymbolicSolver.Number.Rational
import SymbolicSolver.Proofs.Number.Rounding

/-!
# Arithmetic of doubles

A rational with a short mantissa is held by a float exactly. On such operands the operations of floats round the exact
result once; the same holds of decimal numbers and of the float of a rational.
-/

namespace SymbolicSolver.Double

open Float.Model Float.Model.UnpackedFloat

/-! ## Packing -/

@[simp] theorem unpackSign_packComponents (s : Sign) (e : BitVec 11) (m : BitVec 52) :
    Sign.ofBitVec (unpackSign (packComponents Format.binary64 s e m)) = s := by
  have hbit : unpackSign (packComponents Format.binary64 s e m) = s.toBitVec := by
    apply BitVec.eq_of_getLsbD_eq
    intro i hi
    obtain rfl : i = 0 := by omega
    have happ : (s.toBitVec ++ e ++ m).getLsbD 63 = s.toBitVec.getLsbD 0 := by
      rw [BitVec.getLsbD_append, BitVec.getLsbD_append]
      rfl
    simp only [unpackSign, packComponents, BitVec.getLsbD_cast, BitVec.getLsbD_extractLsb]
    exact happ
  rw [hbit]
  cases s <;> rfl

theorem unpack_pack_zero (s : Sign) : (Float.Model.pack (.zero s)).unpack = .zero s := by
  cases s <;> rfl

theorem unpack_pack_infinity (s : Sign) : (Float.Model.pack (.infinity s)).unpack = .infinity s := by
  cases s <;> rfl

/-- An exponent that is too large gives an infinity. -/
theorem Canonical.pack_infinity {m : Nat} {e : Int} (h : Canonical m e) (he : 971 < e) (s : Sign) :
    Float.Model.pack (.finite s m e h.pos) = Float.Model.pack (.infinity s) := by
  have hbias : 2 ^ 11 ≤ (e + (Format.binary64.exponentBias : Int) + 52).toNat + 1 := by
    change 2 ^ 11 ≤ (e + (1023 : Int) + 52).toNat + 1
    omega
  have hpack : UnpackedFloat.pack Format.binary64 (.finite s m e h.pos) = packedInfinity Format.binary64 s :=
    if_pos hbias
  simp only [Float.Model.pack, hpack]
  rfl

theorem toNat_one_append (m : BitVec 52) : (1#1 ++ m).toNat = 2 ^ 52 + m.toNat := by
  rw [BitVec.toNat_append, ← Nat.shiftLeft_add_eq_or_of_lt m.isLt]
  rfl

/-- Packing loses nothing of a mantissa and an exponent that fit. -/
theorem Canonical.unpack_pack {m : Nat} {e : Int} (h : Canonical m e) (he : e ≤ 971) (s : Sign) :
    (Float.Model.pack (.finite s m e h.pos)).unpack = .finite s m e h.pos := by
  have hlow := h.low
  have hlt := h.lt
  change UnpackedFloat.unpack Format.binary64 (UnpackedFloat.pack Format.binary64 _) = _
  obtain ⟨b, hb⟩ := Int.eq_ofNat_of_zero_le (a := e + 1075) (by omega)
  have hbias : (e + (Format.binary64.exponentBias : Int) + 52).toNat = b := by
    change (e + (1023 : Int) + 52).toNat = b
    omega
  have hpack : UnpackedFloat.pack Format.binary64 (.finite s m e h.pos) =
      if m.log2 + 1 = 53 then packComponents Format.binary64 s (BitVec.ofNat 11 b) (BitVec.ofNat 52 m)
      else packComponents Format.binary64 s 0#11 (BitVec.ofNat 52 m) := by
    rw [← hbias]
    exact if_neg (by change ¬ 2 ^ 11 ≤ (e + (1023 : Int) + 52).toNat + 1; omega)
  have hb' : (BitVec.ofNat 11 b).toNat = b := Nat.mod_eq_of_lt (by omega)
  rw [hpack]
  by_cases hfull : 2 ^ 52 ≤ m
  · have hlog : m.log2 + 1 = 53 := by
      have h1 := (Nat.le_log2 h.pos.ne').2 hfull
      have h2 := (Nat.log2_lt h.pos.ne').2 h.lt
      omega
    have hmax : BitVec.ofNat 11 b ≠ -1#11 := fun hc => by
      have := congrArg BitVec.toNat hc
      rw [hb'] at this
      simp at this
      omega
    have hmin : BitVec.ofNat 11 b ≠ 0#11 := fun hc => by
      have := congrArg BitVec.toNat hc
      rw [hb'] at this
      simp at this
      omega
    have hmantissa : (1#1 ++ BitVec.ofNat 52 m).toNat = m := by
      rw [toNat_one_append, BitVec.toNat_ofNat]
      omega
    rw [if_pos hlog]
    unfold UnpackedFloat.unpack
    simp only [unpackMantissa_packComponents, unpackExponent_packComponents, unpackSign_packComponents, hmax, hmin,
      if_false, hb', hmantissa]
    congr 1
    change (b : Int) - ((1023 : Int) + 52) = e
    omega
  · have he' : e = -1074 := h.full.resolve_left hfull
    have hlog : ¬ m.log2 + 1 = 53 := by
      have h1 := (Nat.log2_lt h.pos.ne').2 (not_le.1 hfull)
      omega
    have hmantissa : (BitVec.ofNat 52 m).toNat = m := Nat.mod_eq_of_lt (by omega)
    have hzero : BitVec.ofNat 52 m ≠ 0#52 := fun hc => by
      have := congrArg BitVec.toNat hc
      rw [hmantissa] at this
      exact h.pos.ne' this
    rw [if_neg hlog]
    unfold UnpackedFloat.unpack
    simp only [unpackMantissa_packComponents, unpackExponent_packComponents, unpackSign_packComponents, hzero,
      if_true, hmantissa, he']
    rfl

/-! ## Rationals that a float holds -/

/-- A multiple of a power of two that is neither too large nor too fine. -/
def Representable (q : Rat) : Prop :=
  ∃ m e : Int, m.natAbs < 2 ^ 53 ∧ -1074 ≤ e ∧ Int.log 2 |q| < 1024 ∧ q = m * 2 ^ e

theorem Representable.neg {q : Rat} (h : Representable q) : Representable (-q) := by
  obtain ⟨m, e, hm, he, hlt, hq⟩ := h
  exact ⟨-m, e, by rwa [Int.natAbs_neg], he, by rwa [abs_neg], by rw [hq]; push_cast; ring⟩

theorem log2_mul_two_pow {m : Nat} (hm : 0 < m) (k : Nat) : (m * 2 ^ k).log2 = m.log2 + k := by
  rw [Nat.log2_eq_iff (by positivity), pow_add, add_right_comm, pow_add]
  exact ⟨Nat.mul_le_mul_right _ (Nat.log2_self_le hm.ne'),
    Nat.mul_lt_mul_of_pos_right Nat.lt_log2_self (by positivity)⟩

/-- The mantissa is filled up with zeros. -/
theorem Representable.canonical {v : Rat} (h : Representable v) (hv : 0 < v) :
    ∃ m e, Canonical m e ∧ e ≤ 971 ∧ v = m * 2 ^ e := by
  obtain ⟨n, e, hn, he, hlt, rfl⟩ := h
  have hpow : (0 : Rat) < 2 ^ e := by positivity
  have hn0 : 0 < n := by exact_mod_cast pos_of_mul_pos_left hv hpow.le
  obtain ⟨m, rfl⟩ := Int.eq_ofNat_of_zero_le hn0.le
  rw [Int.natAbs_natCast] at hn
  have hm : 0 < m := by exact_mod_cast hn0
  have hlog := (Nat.log2_lt hm.ne').2 hn
  rw [abs_of_pos hv, Int.cast_natCast, log_mul_zpow hm (Nat.floor_natCast m)] at hlt
  obtain ⟨k, hk⟩ := Int.eq_ofNat_of_zero_le (a := e - max ((m.log2 : Int) + e - 52) (-1074)) (by omega)
  have hlogk := log2_mul_two_pow hm k
  have hpos : 0 < m * 2 ^ k := by positivity
  refine ⟨m * 2 ^ k, e - k, ⟨hpos, ?_, by omega, ?_⟩, by omega, ?_⟩
  · refine (Nat.log2_lt hpos.ne').1 ?_
    rw [hlogk]
    omega
  · by_cases hlow : e - k = -1074
    · exact .inr hlow
    · refine .inl ((Nat.le_log2 hpos.ne').1 ?_)
      rw [hlogk]
      omega
  · push_cast
    rw [mul_assoc, ← zpow_natCast, ← zpow_add₀ two_ne_zero, add_sub_cancel]

/-! ## Signs -/

/-- A rational with a sign. -/
def signed : Sign → Rat → Rat
  | .negative, v => -v
  | .positive, v => v

theorem signed_neg (s : Sign) (v : Rat) : signed (-s) v = -signed s v := by
  cases s
  · exact (neg_neg v).symm
  · rfl

theorem signed_mul (s t : Sign) (v w : Rat) : signed (s * t) (v * w) = signed s v * signed t w := by
  cases s <;> cases t
  · exact (neg_mul_neg v w).symm
  · exact (neg_mul v w).symm
  · exact (mul_neg v w).symm
  · rfl

theorem signed_div (s t : Sign) (v w : Rat) : signed (s / t) (v / w) = signed s v / signed t w := by
  cases s <;> cases t
  · exact (neg_div_neg_eq v w).symm
  · exact (neg_div w v).symm
  · exact (div_neg v).symm
  · rfl

theorem abs_signed (s : Sign) {v : Rat} (hv : 0 < v) : |signed s v| = v := by
  cases s
  · rw [signed, abs_neg, abs_of_pos hv]
  · exact abs_of_pos hv

/-! ## The float nearest to a rational, with its sign -/

/-- The float nearest to a rational; the sign is that of a zero. -/
def rounded (s : Sign) (q : Rat) : UnpackedFloat :=
  if q = 0 then .zero s
  else if 0 < q then nearest .positive q
  else nearest .negative (-q)

theorem rounded_zero (s : Sign) : rounded s 0 = .zero s := if_pos rfl

theorem rounded_signed (s₀ s : Sign) {v : Rat} (hv : 0 < v) : rounded s₀ (signed s v) = nearest s v := by
  cases s
  · rw [rounded, signed, if_neg (neg_ne_zero.2 hv.ne'), if_neg (by simpa using hv.le), neg_neg]
  · rw [rounded, signed, if_neg hv.ne', if_pos hv]

theorem signed_cases (q : Rat) : q = 0 ∨ ∃ s v, 0 < v ∧ q = signed s v := by
  rcases lt_trichotomy q 0 with h | h | h
  · exact .inr ⟨.negative, -q, by linarith, (neg_neg q).symm⟩
  · exact .inl h
  · exact .inr ⟨.positive, q, h, rfl⟩

theorem normalize_eq (n e : Int) (s : Sign) : UnpackedFloat.normalize Format.binary64 n e s = rounded s (n * 2 ^ e) := by
  have hpow : (0 : Rat) < 2 ^ e := by positivity
  rcases lt_trichotomy n 0 with h | rfl | h
  · obtain ⟨m, hm⟩ := Int.eq_ofNat_of_zero_le (a := -n) (by omega)
    have hcast : (n : Rat) = -(m : Rat) := by
      have : n = -(m : Int) := by omega
      rw [this]
      push_cast
      rfl
    have hpos : (0 : Rat) < m * 2 ^ e := mul_pos (by exact_mod_cast (by omega : 0 < m)) hpow
    have hround : UnpackedFloat.normalize Format.binary64 n e s = UnpackedFloat.round Format.binary64 .negative m e := by
      rw [UnpackedFloat.normalize, Int.compare_eq_lt.2 h, hm]
      rfl
    rw [hround, round_eq .negative (by omega), hcast, neg_mul]
    exact (rounded_signed s .negative hpos).symm
  · rw [Int.cast_zero, zero_mul, rounded_zero]
    rfl
  · obtain ⟨m, rfl⟩ := Int.eq_ofNat_of_zero_le h.le
    have hpos : (0 : Rat) < m * 2 ^ e := mul_pos (by exact_mod_cast h) hpow
    have hround : UnpackedFloat.normalize Format.binary64 m e s = UnpackedFloat.round Format.binary64 .positive m e := by
      rw [UnpackedFloat.normalize, Int.compare_eq_gt.2 h]
      rfl
    rw [hround, round_eq .positive (by omega), Int.cast_natCast]
    exact (rounded_signed s .positive hpos).symm

/-- A float that is a rational rounded once. -/
def Rounds (x : Float) (q : Rat) : Prop := ∃ s, x = .ofModel (.pack (rounded s q))

/-- A float whose value is a rational. -/
inductive Holds (x : Float) : Rat → Prop
  | zero {s : Sign} (h : x.toModel.unpack = .zero s) : Holds x 0
  | finite {s : Sign} {m : Nat} {e : Int} (hc : Canonical m e) (h : x.toModel.unpack = .finite s m e hc.pos) :
    Holds x (signed s (m * 2 ^ e))

theorem Canonical.value_pos {m : Nat} {e : Int} (h : Canonical m e) : (0 : Rat) < m * 2 ^ e :=
  mul_pos (by exact_mod_cast h.pos) (by positivity)

theorem Canonical.rounded_eq {m : Nat} {e : Int} (h : Canonical m e) (s₀ s : Sign) :
    rounded s₀ (signed s (m * 2 ^ e)) = .finite s m e h.pos := by
  rw [rounded_signed s₀ s h.value_pos, h.nearest_eq]

/-- The value of a mantissa of which the exponent was lowered. -/
theorem apply_decreaseExponent (s : Sign) (m : Nat) {e f : Int} (hf : f ≤ e) :
    ((s.apply (decreaseExponent m e f).1 : Int) : Rat) * 2 ^ f = signed s (m * 2 ^ e) := by
  obtain ⟨k, hk⟩ := Int.eq_ofNat_of_zero_le (sub_nonneg.2 hf)
  have hvalue : (((decreaseExponent m e f).1 : ℕ) : Rat) * 2 ^ f = m * 2 ^ e := by
    rw [show e = f + k by omega, zpow_add₀ two_ne_zero, zpow_natCast]
    simp only [decreaseExponent, add_sub_cancel_left, Int.toNat_natCast, Nat.shiftLeft_eq]
    push_cast
    ring
  cases s
  · rw [Sign.apply, signed, ← hvalue]
    push_cast
    ring
  · rw [Sign.apply, signed, ← hvalue]
    rfl

theorem Holds.add {x y : Float} {p q : Rat} (hx : Holds x p) (hy : Holds y q) : Rounds (x + y) (p + q) := by
  suffices h : ∃ s, UnpackedFloat.add Format.binary64 x.toModel.unpack y.toModel.unpack = rounded s (p + q) from
    h.imp fun s hs => congrArg (fun f => Float.ofModel (Float.Model.pack f)) hs
  cases hx with
  | @zero s h₁ =>
    cases hy with
    | @zero t h₂ =>
      rw [h₁, h₂, add_zero]
      refine ⟨if s == t then s else .positive, ?_⟩
      rw [rounded_zero]
      cases s <;> cases t <;> rfl
    | @finite t m e hc h₂ =>
      rw [h₁, h₂, zero_add]
      exact ⟨s, (hc.rounded_eq s t).symm⟩
  | @finite s m e hc h₁ =>
    cases hy with
    | @zero t h₂ =>
      rw [h₁, h₂, add_zero]
      exact ⟨s, (hc.rounded_eq s s).symm⟩
    | @finite t m' e' hc' h₂ =>
      rw [h₁, h₂, ← apply_decreaseExponent s m (min_le_left e e'), ← apply_decreaseExponent t m' (min_le_right e e'),
        ← add_mul, ← Int.cast_add]
      exact ⟨.positive, normalize_eq _ _ _⟩

theorem Holds.sub {x y : Float} {p q : Rat} (hx : Holds x p) (hy : Holds y q) : Rounds (x - y) (p - q) := by
  suffices h : ∃ s, UnpackedFloat.sub Format.binary64 x.toModel.unpack y.toModel.unpack = rounded s (p - q) from
    h.imp fun s hs => congrArg (fun f => Float.ofModel (Float.Model.pack f)) hs
  cases hx with
  | @zero s h₁ =>
    cases hy with
    | @zero t h₂ =>
      rw [h₁, h₂, sub_zero]
      refine ⟨if s == -t then s else .positive, ?_⟩
      rw [rounded_zero]
      cases s <;> cases t <;> rfl
    | @finite t m e hc h₂ =>
      rw [h₁, h₂, zero_sub, ← signed_neg]
      exact ⟨s, (hc.rounded_eq s (-t)).symm⟩
  | @finite s m e hc h₁ =>
    cases hy with
    | @zero t h₂ =>
      rw [h₁, h₂, sub_zero]
      exact ⟨s, (hc.rounded_eq s s).symm⟩
    | @finite t m' e' hc' h₂ =>
      rw [h₁, h₂, ← apply_decreaseExponent s m (min_le_left e e'), ← apply_decreaseExponent t m' (min_le_right e e'),
        ← sub_mul, ← Int.cast_sub]
      exact ⟨.positive, normalize_eq _ _ _⟩

/-! ## Products and quotients -/

theorem mul_finite (s t : Sign) {m n : Nat} (hm : 0 < m) (hn : 0 < n) (e f : Int)
    (h : 2 ^ 52 ≤ m * n ∨ e + f ≤ -1074) :
    UnpackedFloat.mul Format.binary64 (.finite s m e hm) (.finite t n f hn) =
      nearest (s * t) (m * 2 ^ e * (n * 2 ^ f)) := by
  have hpos : 0 < m * n := Nat.mul_pos hm hn
  have hvalue : (m * 2 ^ e * (n * 2 ^ f) : Rat) = ((m * n : ℕ) : Rat) * 2 ^ (e + f) := by
    rw [zpow_add₀ two_ne_zero]
    push_cast
    ring
  rw [hvalue]
  refine roundWithAccuracy_eq (s * t) hpos (Nat.floor_natCast _) ?_ ?_
  · rw [extended_natCast]
    rfl
  · rw [Double.place, log_mul_zpow hpos (Nat.floor_natCast _)]
    rcases h with h | h
    · have hlog := (Nat.le_log2 hpos.ne').2 h
      omega
    · omega

theorem Canonical.mul_finite {m n : Nat} {e f : Int} (hm : Canonical m e) (hn : Canonical n f) (s t : Sign) :
    UnpackedFloat.mul Format.binary64 (.finite s m e hm.pos) (.finite t n f hn.pos) =
      nearest (s * t) (m * 2 ^ e * (n * 2 ^ f)) := by
  refine Double.mul_finite s t hm.pos hn.pos e f ?_
  rcases hm.full with h | h
  · exact .inl (h.trans (Nat.le_mul_of_pos_right m hn.pos))
  · rcases hn.full with h' | h'
    · exact .inl (h'.trans (Nat.le_mul_of_pos_left n hm.pos))
    · exact .inr (by omega)

theorem Holds.mul {x y : Float} {p q : Rat} (hx : Holds x p) (hy : Holds y q) : Rounds (x * y) (p * q) := by
  suffices h : ∃ s, UnpackedFloat.mul Format.binary64 x.toModel.unpack y.toModel.unpack = rounded s (p * q) from
    h.imp fun s hs => congrArg (fun f => Float.ofModel (Float.Model.pack f)) hs
  cases hx with
  | @zero s h₁ =>
    cases hy with
    | @zero t h₂ =>
      rw [h₁, h₂, mul_zero]
      exact ⟨s * t, (rounded_zero _).symm⟩
    | @finite t m e hc h₂ =>
      rw [h₁, h₂, zero_mul]
      exact ⟨s * t, (rounded_zero _).symm⟩
  | @finite s m e hc h₁ =>
    cases hy with
    | @zero t h₂ =>
      rw [h₁, h₂, mul_zero]
      exact ⟨s * t, (rounded_zero _).symm⟩
    | @finite t m' e' hc' h₂ =>
      rw [h₁, h₂, ← signed_mul, hc.mul_finite hc' s t]
      exact ⟨s, (rounded_signed s _ (mul_pos hc.value_pos hc'.value_pos)).symm⟩

/-- A quotient that is not too fine for a float is computed with enough bits. -/
theorem div_finite (s t : Sign) {m n : Nat} (hm : 0 < m) (hn : 0 < n) (e f : Int)
    (h : -1074 ≤ Int.log 2 ((m * 2 ^ e : Rat) / (n * 2 ^ f))) :
    UnpackedFloat.div Format.binary64 (.finite s m e hm) (.finite t n f hn) =
      nearest (s / t) (m * 2 ^ e / (n * 2 ^ f)) := by
  have hmpos : (0 : Rat) < m * 2 ^ e := mul_pos (by exact_mod_cast hm) (by positivity)
  have hnpos : (0 : Rat) < n * 2 ^ f := mul_pos (by exact_mod_cast hn) (by positivity)
  have hpos := div_pos hmpos hnpos
  -- The quotient of the leading bits is off by one place at most.
  have hlog : (m.log2 : Int) + e - (n.log2 + f) - 1 ≤ Int.log 2 ((m * 2 ^ e : Rat) / (n * 2 ^ f)) := by
    refine (Int.zpow_le_iff_le_log one_lt_two hpos).1 ?_
    have hlow := (Int.zpow_le_iff_le_log one_lt_two hmpos).2 (log_mul_zpow hm (Nat.floor_natCast m) e).ge
    have hhigh := (Int.lt_zpow_iff_log_lt one_lt_two hnpos).2
      ((log_mul_zpow hn (Nat.floor_natCast n) f).trans_lt (lt_add_one _))
    rw [le_div_iff₀ hnpos]
    refine le_trans (mul_le_mul_of_nonneg_left hhigh.le (by positivity)) (le_trans (le_of_eq ?_) hlow)
    rw [Nat.cast_two, ← zpow_add₀ two_ne_zero]
    congr 1
    ring
  generalize htarget : min (e - f) (Format.binary64.targetExponent (totalExponent m e - totalExponent n f)) = u
  have hu : u ≤ max (Int.log 2 ((m * 2 ^ e : Rat) / (n * 2 ^ f)) - 52) (-1074) := by
    rw [← htarget, targetExponent_eq, totalExponent, totalExponent]
    omega
  obtain ⟨k, hk⟩ := Int.eq_ofNat_of_zero_le (a := e - f - u) (by omega)
  have hcast : ((m <<< k : ℕ) : Rat) = m * 2 ^ k := by
    rw [Nat.shiftLeft_eq]
    push_cast
    rfl
  have hvalue : (m * 2 ^ e : Rat) / (n * 2 ^ f) = ((m <<< k : ℕ) : Rat) / n * 2 ^ u := by
    rw [hcast, show e = k + u + f by omega, zpow_add₀ two_ne_zero, zpow_add₀ two_ne_zero, zpow_natCast, ← mul_assoc,
      mul_div_mul_right _ _ (by positivity)]
    ring
  have hdiv : UnpackedFloat.div Format.binary64 (.finite s m e hm) (.finite t n f hn) =
      roundWithAccuracy Format.binary64 (s / t) (m <<< k / n) u (accuracyOfFraction (m <<< k % n) n) := by
    rw [UnpackedFloat.div, divCore, htarget, hk]
    rfl
  have hfloor : ⌊((m <<< k : ℕ) : Rat) / n⌋₊ = m <<< k / n := Nat.floor_div_eq_div _ _
  have hquot : 0 < m <<< k / n := by
    rw [← hfloor, Nat.floor_pos]
    have hone : ((2 : ℕ) : Rat) ^ u ≤ ((m <<< k : ℕ) : Rat) / n * 2 ^ u := by
      rw [← hvalue]
      exact (Int.zpow_le_iff_le_log one_lt_two hpos).2 (by omega)
    rw [Nat.cast_two] at hone
    exact le_of_mul_le_mul_right (by rwa [one_mul]) (by positivity : (0 : Rat) < 2 ^ u)
  rw [hdiv, hvalue]
  refine roundWithAccuracy_eq (s / t) hquot hfloor (ofMantissaAndAccuracy_div _ hn) ?_
  rw [← hvalue]
  exact hu

theorem Holds.div {x y : Float} {p q : Rat} (hx : Holds x p) (hy : Holds y q) (hq : q ≠ 0)
    (h : p = 0 ∨ -1074 ≤ Int.log 2 |p / q|) : Rounds (x / y) (p / q) := by
  suffices h : ∃ s, UnpackedFloat.div Format.binary64 x.toModel.unpack y.toModel.unpack = rounded s (p / q) from
    h.imp fun s hs => congrArg (fun f => Float.ofModel (Float.Model.pack f)) hs
  cases hy with
  | zero => exact absurd rfl hq
  | @finite t n f hc' h₂ =>
    cases hx with
    | @zero s h₁ =>
      rw [h₁, h₂, zero_div]
      exact ⟨s / t, (rounded_zero _).symm⟩
    | @finite s m e hc h₁ =>
      have hpos := div_pos hc.value_pos hc'.value_pos
      have hne : signed s (m * 2 ^ e) ≠ 0 := abs_ne_zero.1 (by rw [abs_signed s hc.value_pos]; exact hc.value_pos.ne')
      have hlog := h.resolve_left hne
      rw [← signed_div, abs_signed _ hpos] at hlog
      rw [h₁, h₂, ← signed_div, div_finite s t hc.pos hc'.pos e f hlog]
      exact ⟨s, (rounded_signed s _ hpos).symm⟩

/-! ## Negatives -/

/-- A rounded rational is packed without loss, unless it is too large. -/
theorem unpack_pack_nearest (s : Sign) {v : Rat} (hv : 0 < v) :
    (Float.Model.pack (nearest s v)).unpack = nearest s v ∨
      Float.Model.pack (nearest s v) = Float.Model.pack (.infinity s) := by
  obtain h | ⟨m, e, hc, h⟩ := nearest_canonical s hv
  · rw [h]
    exact .inl (unpack_pack_zero s)
  · rw [h]
    by_cases he : e ≤ 971
    · exact .inl (hc.unpack_pack he s)
    · exact .inr (hc.pack_infinity (not_le.1 he) s)

theorem neg_nearest (s : Sign) (v : Rat) : (nearest s v).neg = nearest (-s) v := by
  unfold nearest finish
  dsimp only
  split <;> rfl

theorem Rounds.neg {x : Float} {q : Rat} (h : Rounds x q) : Rounds (-x) (-q) := by
  obtain ⟨s₀, rfl⟩ := h
  refine ⟨-s₀, ?_⟩
  change Float.ofModel (Float.Model.pack (Float.Model.pack (rounded s₀ q)).unpack.neg) = _
  obtain rfl | ⟨s, v, hv, rfl⟩ := signed_cases q
  · rw [rounded_zero, neg_zero, rounded_zero, unpack_pack_zero]
    rfl
  · rw [← signed_neg, rounded_signed _ _ hv, rounded_signed _ _ hv, ← neg_nearest]
    obtain h | ⟨m, e, hc, h⟩ := nearest_canonical s hv
    · rw [h, unpack_pack_zero]
    · rw [h]
      by_cases he : e ≤ 971
      · rw [hc.unpack_pack he]
      · rw [hc.pack_infinity (not_le.1 he), unpack_pack_infinity]
        exact congrArg Float.ofModel (hc.pack_infinity (not_le.1 he) (-s)).symm

/-! ## Decimal numbers -/

theorem Holds.isFinite {x : Float} {q : Rat} (h : Holds x q) : x.isFinite = true := by
  change x.toModel.unpack.isFinite = true
  cases h with
  | zero h => rw [h]; rfl
  | finite hc h => rw [h]; rfl

/-- A float that is neither negative nor a NaN. -/
inductive Nonnegative (x : Float) : Prop
  | zero (h : x.toModel.unpack = .zero .positive)
  | infinity (h : x.toModel.unpack = .infinity .positive)
  | finite {m : Nat} {e : Int} (hc : Canonical m e) (h : x.toModel.unpack = .finite .positive m e hc.pos)

theorem nonnegative_nearest {v : Rat} (hv : 0 < v) : Nonnegative (.ofModel (.pack (nearest .positive v))) := by
  obtain h | h := unpack_pack_nearest .positive hv
  · obtain hz | ⟨m, e, hc, hf⟩ := nearest_canonical .positive hv
    · exact .zero (h.trans hz)
    · exact .finite hc (h.trans hf)
  · refine .infinity ?_
    change (Float.Model.pack (nearest .positive v)).unpack = _
    rw [h, unpack_pack_infinity]

theorem Nonnegative.mul {x c : Float} (hx : Nonnegative x) {m : Nat} {e : Int} (hc : Canonical m e)
    (h : c.toModel.unpack = .finite .positive m e hc.pos) : Nonnegative (c * x) := by
  have hmul : c * x = .ofModel (.pack (UnpackedFloat.mul Format.binary64 c.toModel.unpack x.toModel.unpack)) := rfl
  rw [hmul, h]
  cases hx with
  | zero hx =>
    rw [hx]
    exact .zero (unpack_pack_zero .positive)
  | infinity hx =>
    rw [hx]
    exact .infinity (unpack_pack_infinity .positive)
  | finite hc' hx =>
    rw [hx, hc.mul_finite hc']
    exact nonnegative_nearest (mul_pos hc.value_pos hc'.value_pos)

theorem Nonnegative.zero_le {x : Float} (hx : Nonnegative x) : (0 : Float).abs ≤ x := by
  have hzero : (0 : Float).abs.toModel.unpack = .zero .positive := rfl
  refine decide_eq_true ?_
  change UnpackedFloat.le (0 : Float).abs.toModel.unpack x.toModel.unpack = true
  cases hx with
  | zero h => rw [hzero, h]; rfl
  | infinity h => rw [hzero, h]; rfl
  | finite hc h => rw [hzero, h]; rfl

end SymbolicSolver.Double
