import SymbolicSolver.Calculus.Limit
import SymbolicSolver.Proofs.Calculus.RightLimit

/-!
# Limits of rational expressions

The limit of a rational expression at a rational point is the limit of its values from the right. What the rules do
exactly is right: values at the point, sums, products and quotients of limits, and quotients of derivatives. The rules
also read signs and estimates off the values at fixed distances, take a result without undefined parts for the value
at the point, and tell infinities from rationals that have been computed. The limit is right if these readings are.
-/

namespace SymbolicSolver.Expr

open Filter Topology
open Interpretation (point pointAs)

/-! ## Readings -/

/-- Whether the limit that is found, if any, has been computed to a rational or is an infinity. -/
def Computed (limit : Option Expr) : Prop := ∀ L, limit = some L → ∃ l : Extended, L = l.expr

/-- Whether a quotient of limits is indeterminate. -/
def indeterminate (ln ld : Expr) : Bool :=
  (ln.isZero && ld.isZero) || (ln.infinitySign?.isSome && ld.infinitySign?.isSome)

/-- What is read off when the limit of a quotient is taken: the limits of both sides are computed, the quotient of the
derivatives reads right, the sign at a pole is the sign close to it, and the reciprocal of the limit of the denominator
is computed. -/
structure QuotientReads (deeper : LimitRule) (reads : Expr → Prop) (name : String) (a : ℚ) (n d : Expr) : Prop where
  num : reads n ∧ Computed (deeper n name (rat a))
  den : reads d ∧ Computed (deeper d name (rat a))
  derivatives : ∀ ln ld, deeper n name (rat a) = some ln → deeper d name (rat a) = some ld →
    indeterminate ln ld = true → reads (derivative name n / derivative name d).simplify
  sign : ∀ ln ld, deeper n name (rat a) = some ln → deeper d name (rat a) = some ld → indeterminate ln ld = false →
    ld.isZero = true → ∀ s, signRightOf? (n / d) name (rat a) = some s →
      ∀ᶠ t in 𝓝[>] (a : ℝ), 0 < s * (n / d).realAt t
  inverse : ∀ ld, deeper d name (rat a) = some ld → ld.isZero = false → Computed (some ld.inverse)

/-- What is read off when the limit of a product is taken. -/
structure ProductReads (deeper : LimitRule) (reads : Expr → Prop) (name : String) (a : ℚ) (fs : List Expr) : Prop where
  factors : ∀ f ∈ fs, reads f ∧ Computed (deeper f name (rat a))
  splits : combineLimits? (fun t => deeper t name (rat a)) fs product = none → ∀ s ∈ splits fs,
    ((deeper s.2.1 name (rat a)).bind infinitySign?).isSome = true →
      NotZero (product (s.1 ++ s.2.2)) ∧
        QuotientReads deeper reads name a s.2.1 (product (s.1 ++ s.2.2)).inverse ∧
        (quotientLimit? deeper s.2.1 (product (s.1 ++ s.2.2)).inverse name (rat a) = none →
          QuotientReads deeper reads name a (product (s.1 ++ s.2.2)) s.2.1.inverse)

/-- What is read off by the rules for an expression, each rule only if those before it give no limit. -/
structure RuleReads (deeper : LimitRule) (reads : Expr → Prop) (name : String) (a : ℚ) (x : Expr) : Prop where
  value : (x.subst name (rat a)).isDefined = true → DefinedAt (fun _ => a) x
  terms : (x.subst name (rat a)).isDefined = false → ∀ ts, x = add ts → ∀ t ∈ ts,
    reads t ∧ Computed (deeper t name (rat a))
  fraction : (x.subst name (rat a)).isDefined = false → limitByForm? deeper x name (rat a) = none →
    x.toFraction.den.isOne = false → QuotientReads deeper reads name a x.toFraction.num x.toFraction.den
  product : (x.subst name (rat a)).isDefined = false → limitByForm? deeper x name (rat a) = none →
    limitAsFraction? deeper x name (rat a) = none → ∀ fs, x = mul fs → ProductReads deeper reads name a fs
  estimate : (x.subst name (rat a)).isDefined = false → limitByForm? deeper x name (rat a) = none →
    limitAsFraction? deeper x name (rat a) = none → productLimit? deeper x name (rat a) = none →
    ∀ L, numericLimit? x name (rat a) = some L → HasRightLimit a x L

/-- Whether everything is right that is read off on the way to a limit. -/
def ReadsRight (name : String) (a : ℚ) : ℕ → ℕ → Expr → Prop
  | 0, _, _ => True
  | n + 1, level, x => x.hasVar name = true →
    RuleReads (limitAt? n (level + 1)) (ReadsRight name a n (level + 1)) name a x

/-! ## Each rule -/

theorem defined?_eq_some {x L : Expr} (h : x.defined? = some L) : x.isDefined = true ∧ L = x := by
  obtain ⟨hx, h⟩ := Option.ite_none_right_eq_some.1 h
  exact ⟨hx, (Option.some.inj h).symm⟩

theorem ne_undefined_of_isDefined {x : Expr} (h : x.isDefined = true) : x ≠ undefined := by
  rintro rfl
  simp [isDefined, contains, exist] at h

theorem isZero_expr (l : Extended) : l.expr.isZero = true ↔ l = .number 0 := by
  cases l <;> simp [Extended.expr, isZero, negInfinity]

theorem isSome_infinitySign?_expr (l : Extended) : l.expr.infinitySign?.isSome = l.isInfinite := by
  cases l <;> simp [Extended.expr, infinitySign?, negInfinity, Extended.isInfinite]

/-- The indeterminate quotients. -/
theorem indeterminate_expr {l m : Extended} (h : indeterminate l.expr m.expr = true) :
    l = .number 0 ∧ m = .number 0 ∨ l.isInfinite = true ∧ m.isInfinite = true := by
  simpa only [indeterminate, Bool.or_eq_true, Bool.and_eq_true, isZero_expr, isSome_infinitySign?_expr] using h

/-- The reciprocal of a limit other than zero, where it has been computed. -/
theorem tendsto_inverse {f : ℝ → ℝ} {F : Filter ℝ} {l m : Extended} (hl : l.expr.isZero = false)
    (hm : l.expr.inverse = m.expr) (hf : Tendsto f F (l.nhds ℝ)) : Tendsto (fun t => (f t)⁻¹) F (m.nhds ℝ) := by
  cases hinf : l.isInfinite with
  | true =>
    rw [inverse_infinite hinf] at hm
    obtain rfl : m = .number 0 := (isZero_expr m).1 (hm ▸ rfl)
    exact Extended.tendsto_inv hinf hf
  | false =>
    cases l with
    | number q =>
      have hq : q ≠ 0 := fun h0 => by simp [Extended.expr, isZero, h0] at hl
      have hvalue (ρ : String → ℚ) := (defined_rat (r := .ofVars ρ) q).power (n := -1) (.inr hq)
      obtain rfl : m = .number q⁻¹ := eq_of_means_expr fun ρ => by
        rw [← hm]
        exact ⟨(hvalue ρ).1, (hvalue ρ).2.trans (zpow_neg_one q)⟩
      simp only [Extended.nhds, map_inv₀] at hf ⊢
      exact hf.inv₀ (by simpa using hq)
    | posInf => cases hinf
    | negInf => cases hinf

/-- The infinity that the values tend to has their sign. -/
theorem means_infinityOf {f : ℝ → ℝ} {F : Filter ℝ} [F.NeBot] {r : Extended} (hr : r.isInfinite = true)
    (hf : Tendsto f F (r.nhds ℝ)) {s : Int} (hs : ∀ᶠ t in F, 0 < s * f t) : (infinityOf (0 < s)).Means r := by
  cases r with
  | number q => cases hr
  | posInf =>
    obtain ⟨t, ht, hft⟩ := (hs.and (hf.eventually_gt_atTop 0)).exists
    have hpos : 0 < s := by exact_mod_cast pos_of_mul_pos_left ht hft.le
    simp [Means, infinityOf, hpos]
  | negInf =>
    obtain ⟨t, ht, hft⟩ := (hs.and (hf.eventually_lt_atBot 0)).exists
    have hneg : s < 0 := by exact_mod_cast neg_of_mul_pos_left ht hft.le
    simp [Means, infinityOf, hneg.le]

section Rules

variable {deeper : LimitRule} {reads : Expr → Prop} {name : String} {a : ℚ} {x n d L : Expr}

/-- The limits that the rules find for parts are right. -/
def RightDeeper (deeper : LimitRule) (reads : Expr → Prop) (name : String) (a : ℚ) : Prop :=
  ∀ y L, RationalIn name y → reads y → deeper y name (rat a) = some L → HasRightLimit a y L

variable (hdeep : RightDeeper deeper reads name a)

include hdeep

/-- A computed limit is what the values of the part tend to. -/
theorem tendsto_of_computed (hx : RationalIn name x) (hr : reads x ∧ Computed (deeper x name (rat a)))
    (h : deeper x name (rat a) = some L) :
    ∃ l : Extended, L = l.expr ∧ Tendsto x.realAt (𝓝[>] (a : ℝ)) (l.nhds ℝ) := by
  obtain ⟨l, rfl⟩ := hr.2 L h
  obtain ⟨-, m, hm, htendsto⟩ := hdeep x _ hx hr.1 h
  obtain rfl := eq_of_means_expr hm
  exact ⟨l, rfl, htendsto⟩

theorem tendsto_of_computed_all {xs Ls : List Expr}
    (h : List.Forall₂ (fun t L => deeper t name (rat a) = some L) xs Ls) (hxs : ∀ t ∈ xs, RationalIn name t)
    (hr : ∀ t ∈ xs, reads t ∧ Computed (deeper t name (rat a))) : ∃ ls : List Extended, Ls = ls.map Extended.expr ∧
      List.Forall₂ (fun t l => Tendsto (realAt t) (𝓝[>] (a : ℝ)) (l.nhds ℝ)) xs ls := by
  induction h with
  | nil => exact ⟨[], rfl, .nil⟩
  | cons h _ ih =>
    obtain ⟨l, rfl, htendsto⟩ := tendsto_of_computed hdeep (hxs _ List.mem_cons_self) (hr _ List.mem_cons_self) h
    obtain ⟨ls, rfl, hls⟩ := ih (fun t ht => hxs t (List.mem_cons_of_mem _ ht)) fun t ht =>
      hr t (List.mem_cons_of_mem _ ht)
    exact ⟨l :: ls, rfl, .cons htendsto hls⟩

/-- The limits of the parts are put together, if they have a sum or a product. -/
theorem hasRightLimit_combine {build : List Expr → Expr} {op? : List Extended → Option Extended} {xs : List Expr}
    (hx : RationalIn name x) (hxs : ∀ t ∈ xs, RationalIn name t)
    (hr : ∀ t ∈ xs, reads t ∧ Computed (deeper t name (rat a)))
    (hbuild : ∀ ls : List Extended, build (ls.map Extended.expr) = ((op? ls).map Extended.expr).getD undefined)
    (htendsto : ∀ {ls s}, List.Forall₂ (fun t l => Tendsto (realAt t) (𝓝[>] (a : ℝ)) (l.nhds ℝ)) xs ls →
      op? ls = some s → Tendsto x.realAt (𝓝[>] (a : ℝ)) (s.nhds ℝ))
    (h : combineLimits? (fun t => deeper t name (rat a)) xs build = some L) : HasRightLimit a x L := by
  obtain ⟨Ls, hLs, hdef⟩ := Option.bind_eq_some_iff.1 h
  obtain ⟨hdefined, rfl⟩ := defined?_eq_some hdef
  obtain ⟨ls, rfl, hls⟩ := tendsto_of_computed_all hdeep (forall₂_of_mapM_eq_some hLs) hxs hr
  rw [hbuild] at hdefined ⊢
  cases hs : op? ls with
  | none => exact (ne_undefined_of_isDefined hdefined (by rw [hs]; rfl)).elim
  | some s => exact ⟨hx.eventually_defined_real a, s, means_expr s, htendsto hls hs⟩

theorem hasRightLimit_add {ts : List Expr} (hx : RationalIn name (add ts))
    (hr : ∀ t ∈ ts, reads t ∧ Computed (deeper t name (rat a)))
    (h : combineLimits? (fun t => deeper t name (rat a)) ts sum = some L) : HasRightLimit a (add ts) L :=
  hasRightLimit_combine hdeep hx hx.term hr sum_expr
    (fun hls hs => (Extended.tendsto_sum hls hs).congr fun t => (realAt_add ts t).symm) h

theorem hasRightLimit_mul {fs : List Expr} (hx : RationalIn name (mul fs))
    (hr : ∀ f ∈ fs, reads f ∧ Computed (deeper f name (rat a)))
    (h : combineLimits? (fun t => deeper t name (rat a)) fs product = some L) : HasRightLimit a (mul fs) L :=
  hasRightLimit_combine hdeep hx hx.factor hr product_expr
    (fun hls hs => (Extended.tendsto_product hls hs).congr fun t => (realAt_mul fs t).symm) h

/-- The rule for an indeterminate quotient. -/
theorem hasRightLimit_indeterminate {l m : Extended} (hquot : QuotientOf name x n d)
    (hn : Tendsto n.realAt (𝓝[>] (a : ℝ)) (l.nhds ℝ)) (hd : Tendsto d.realAt (𝓝[>] (a : ℝ)) (m.nhds ℝ))
    (hind : indeterminate l.expr m.expr = true) (hr : reads (derivative name n / derivative name d).simplify)
    (h : deeper (derivative name n / derivative name d).simplify name (rat a) = some L) : HasRightLimit a x L := by
  have hlm := indeterminate_expr hind
  have hd0 := hquot.den.notZero_derivative hquot.den_notZero hd (hlm.imp And.right And.right)
  have hderiv := (hquot.num.derivative.quotient hquot.den.derivative hd0).simplify
  obtain ⟨-, r, hL, htendsto⟩ := hdeep _ L hderiv.whole hr h
  exact hquot.hasRightLimit hL (hquot.num.tendsto_of_derivatives hquot.den hquot.den_notZero hn hd hlm
    (htendsto.congr' (hderiv.eventually_eq a)))

omit hdeep in
/-- The rule for a denominator that vanishes alone. -/
theorem hasRightLimit_pole {l : Extended} {s : Int} (hquot : QuotientOf name x n d)
    (hn : Tendsto n.realAt (𝓝[>] (a : ℝ)) (l.nhds ℝ)) (hl : l ≠ .number 0)
    (hd : Tendsto d.realAt (𝓝[>] (a : ℝ)) ((Extended.number 0).nhds ℝ))
    (hs : ∀ᶠ t in 𝓝[>] (a : ℝ), 0 < s * (n / d).realAt t) : HasRightLimit a x (infinityOf (0 < s)) := by
  obtain ⟨r, hr, htendsto⟩ := hquot.num.tendsto_pole hquot.den hquot.den_notZero hn hl hd
  have hself := (hquot.num.quotient hquot.den hquot.den_notZero).eventually_eq a
  refine hquot.hasRightLimit (means_infinityOf hr htendsto ?_) htendsto
  filter_upwards [hs, hself] with t ht hself
  rwa [← hself]

omit hdeep in
/-- The rule for all other quotients. -/
theorem hasRightLimit_ratio {l m r : Extended} (hquot : QuotientOf name x n d)
    (hn : Tendsto n.realAt (𝓝[>] (a : ℝ)) (l.nhds ℝ)) (hd : Tendsto d.realAt (𝓝[>] (a : ℝ)) (m.nhds ℝ))
    (hm : m.expr.isZero = false) (hr : m.expr.inverse = r.expr) (h : (l.expr / m.expr).defined? = some L) :
    HasRightLimit a x L := by
  obtain ⟨hdefined, rfl⟩ := defined?_eq_some h
  have hprod : l.expr / m.expr = product ([l, r].map Extended.expr) := by
    rw [List.map_cons, List.map_cons, List.map_nil, ← hr]
    rfl
  rw [hprod, product_expr] at hdefined ⊢
  cases hs : Extended.product? [l, r] with
  | none => exact (ne_undefined_of_isDefined hdefined (by rw [hs]; rfl)).elim
  | some s =>
    have hmul := Extended.tendsto_product (v := fun (f : ℝ → ℝ) t => f t)
      (.cons hn (.cons (tendsto_inverse hm hr hd) .nil)) hs
    exact hquot.hasRightLimit (means_expr s) (hmul.congr fun t => by simp [div_eq_mul_inv])

/-- The rules for a quotient. -/
theorem hasRightLimit_quotient (hquot : QuotientOf name x n d) (hr : QuotientReads deeper reads name a n d)
    (h : quotientLimit? deeper n d name (rat a) = some L) : HasRightLimit a x L := by
  unfold quotientLimit? at h
  split at h
  · rename_i ln ld hln hld
    obtain ⟨l, rfl, hn⟩ := tendsto_of_computed hdeep hquot.num hr.num hln
    obtain ⟨m, rfl, hd⟩ := tendsto_of_computed hdeep hquot.den hr.den hld
    rw [← indeterminate] at h
    cases hind : indeterminate l.expr m.expr with
    | true =>
      rw [hind, if_pos rfl] at h
      exact hasRightLimit_indeterminate hdeep hquot hn hd hind (hr.derivatives _ _ hln hld hind) h
    | false =>
      rw [hind, if_neg Bool.false_ne_true] at h
      cases hzero : m.expr.isZero with
      | true =>
        rw [hzero, if_pos rfl] at h
        obtain ⟨s, hs, rfl⟩ := Option.map_eq_some_iff.1 h
        have hsign := hr.sign _ _ hln hld hind hzero s hs
        obtain rfl := (isZero_expr m).1 hzero
        have hl : l ≠ .number 0 := by
          rintro rfl
          cases hind
        exact hasRightLimit_pole hquot hn hl hd hsign
      | false =>
        rw [hzero, if_neg Bool.false_ne_true] at h
        obtain ⟨r, hinverse⟩ := hr.inverse _ hld hzero _ rfl
        exact hasRightLimit_ratio hquot hn hd hzero hinverse h
  · cases h

/-- A product with an infinite factor as a quotient, one way or the other. -/
theorem hasRightLimit_split {fs : List Expr} (hx : RationalIn name (mul fs)) {s : List Expr × Expr × List Expr}
    (hs : s ∈ splits fs) (hg : reads s.2.1 ∧ Computed (deeper s.2.1 name (rat a)))
    (hinf : ((deeper s.2.1 name (rat a)).bind infinitySign?).isSome = true) (hf0 : NotZero (product (s.1 ++ s.2.2)))
    (hinner : QuotientReads deeper reads name a s.2.1 (product (s.1 ++ s.2.2)).inverse)
    (houter : quotientLimit? deeper s.2.1 (product (s.1 ++ s.2.2)).inverse name (rat a) = none →
      QuotientReads deeper reads name a (product (s.1 ++ s.2.2)) s.2.1.inverse)
    (h : (quotientLimit? deeper s.2.1 (product (s.1 ++ s.2.2)).inverse name (rat a)).or
      (quotientLimit? deeper (product (s.1 ++ s.2.2)) s.2.1.inverse name (rat a)) = some L) :
    HasRightLimit a (mul fs) L := by
  have hperm := splits_perm hs
  obtain ⟨hgx, hrest⟩ := List.forall_mem_cons.1 fun f hf => hx.factor f (hperm.mem_iff.2 hf)
  obtain ⟨hfx, hfvalue⟩ := RationalIn.product hrest
  have hvalue : ∀ᶠ b : ℚ in cofinite, valueAt (fun _ => b) (mul fs) =
      valueAt (fun _ => b) s.2.1 * valueAt (fun _ => b) (product (s.1 ++ s.2.2)) := by
    filter_upwards [hfvalue] with b hb
    rw [hb, valueAt, eval_mul, (hperm.map _).prod_eq, List.map_cons, List.prod_cons]
  rcases Option.or_eq_some_iff.1 h with h | ⟨hnone, h⟩
  · obtain ⟨hfinv, hfinv0, hone⟩ := hfx.inverse hf0
    refine hasRightLimit_quotient hdeep ⟨hx, hgx, hfinv, hfinv0, ?_⟩ hinner h
    filter_upwards [hvalue, hone] with b hb hone
    rw [hb, mul_assoc, mul_comm _ (valueAt _ (inverse _)), hone, mul_one]
  · -- The factor is infinite, so it is not zero everywhere.
    have hg0 : NotZero s.2.1 := by
      obtain ⟨sign, hsign⟩ := Option.isSome_iff_exists.1 hinf
      obtain ⟨Lg, hLg, hsign⟩ := Option.bind_eq_some_iff.1 hsign
      obtain ⟨l, rfl, htendsto⟩ := tendsto_of_computed hdeep hgx hg hLg
      by_contra hzero
      obtain rfl : l = .number 0 := Extended.unique htendsto (RationalIn.tendsto_zero (hgx.eventually_eq_zero hzero a))
      simp [Extended.expr, infinitySign?] at hsign
    obtain ⟨hginv, hginv0, hone⟩ := hgx.inverse hg0
    refine hasRightLimit_quotient hdeep ⟨hx, hfx, hginv, hginv0, ?_⟩ (houter hnone) h
    filter_upwards [hvalue, hone] with b hb hone
    rw [hb, mul_comm, ← mul_assoc, hone, one_mul]

theorem hasRightLimit_product (hx : RationalIn name x) (hr : ∀ fs, x = mul fs → ProductReads deeper reads name a fs)
    (h : productLimit? deeper x name (rat a) = some L) : HasRightLimit a x L := by
  unfold productLimit? at h
  split at h
  · rename_i fs
    have hr := hr fs rfl
    rcases Option.or_eq_some_iff.1 h with h | ⟨hnone, h⟩
    · exact hasRightLimit_mul hdeep hx hr.factors h
    · obtain ⟨s, hs, h⟩ := List.exists_of_findSome?_eq_some h
      dsimp only at h
      split at h
      · cases h
      · rename_i sign hsign
        have hinf : ((deeper s.2.1 name (rat a)).bind infinitySign?).isSome = true := by rw [hsign]; rfl
        obtain ⟨hf0, hinner, houter⟩ := hr.splits hnone s hs hinf
        exact hasRightLimit_split hdeep hx hs (hr.factors _ ((splits_perm hs).mem_iff.2 List.mem_cons_self)) hinf hf0
          hinner houter h
  · cases h

/-- Only sums have a limit by their form: a rational expression has no variable in an exponent and applies no
function. -/
theorem hasRightLimit_byForm (hx : RationalIn name x)
    (hr : ∀ ts, x = add ts → ∀ t ∈ ts, reads t ∧ Computed (deeper t name (rat a)))
    (h : limitByForm? deeper x name (rat a) = some L) : HasRightLimit a x L := by
  obtain ⟨b, hb⟩ := hx.defined
  unfold limitByForm? at h
  split at h
  case h_1 c y =>
    obtain ⟨q, rfl⟩ := hb.exponent
    simp [hasVar, exist] at h
  case h_2 f u => cases hb
  case h_3 ts => exact hasRightLimit_add hdeep hx (hr ts rfl) h
  case h_4 => cases h

theorem hasRightLimit_fraction (hx : RationalIn name x)
    (hr : x.toFraction.den.isOne = false → QuotientReads deeper reads name a x.toFraction.num x.toFraction.den)
    (h : limitAsFraction? deeper x name (rat a) = some L) : HasRightLimit a x L := by
  obtain ⟨hone, h⟩ := Option.ite_none_left_eq_some.1 h
  exact hasRightLimit_quotient hdeep hx.toFraction (hr (Bool.not_eq_true _ ▸ hone)) h

/-- One level of the rules keeps limits right. -/
theorem RuleReads.hasRightLimit (hr : RuleReads deeper reads name a x) (hx : RationalIn name x)
    (h : (x.subst name (rat a)).defined?.or ((limitByForm? deeper x name (rat a)).or
      ((limitAsFraction? deeper x name (rat a)).or ((productLimit? deeper x name (rat a)).or
        (numericLimit? x name (rat a))))) = some L) : HasRightLimit a x L := by
  cases hdefined : (x.subst name (rat a)).isDefined with
  | true =>
    rw [defined?, hdefined, if_pos rfl, Option.some_or] at h
    obtain rfl := Option.some.inj h
    exact hx.hasRightLimit_subst (hr.value hdefined)
  | false =>
    rw [defined?, hdefined, if_neg Bool.false_ne_true, Option.none_or] at h
    rcases Option.or_eq_some_iff.1 h with h | ⟨hform, h⟩
    · exact hasRightLimit_byForm hdeep hx (hr.terms hdefined) h
    rcases Option.or_eq_some_iff.1 h with h | ⟨hfraction, h⟩
    · exact hasRightLimit_fraction hdeep hx (hr.fraction hdefined hform) h
    rcases Option.or_eq_some_iff.1 h with h | ⟨hproduct, h⟩
    · exact hasRightLimit_product hdeep hx (hr.product hdefined hform hfraction) h
    · exact hr.estimate hdefined hform hfraction hproduct L h

end Rules

/-! ## Limits -/

/-- The limit at any level is right if what is read off is. -/
theorem ReadsRight.hasRightLimit {name : String} {a : ℚ} (n : ℕ) : ∀ (level : ℕ) (x L : Expr), RationalIn name x →
    ReadsRight name a n level x → limitAt? n level x name (rat a) = some L → HasRightLimit a x L := by
  induction n with
  | zero =>
    intro level x L _ _ h
    cases h
  | succ n ih =>
    intro level x L hx hr h
    rw [limitAt?] at h
    cases hvar : x.hasVar name with
    | false =>
      rw [hvar] at h
      obtain rfl := Option.some.inj h
      exact hx.hasRightLimit_self hvar a
    | true =>
      rw [hvar] at h
      exact (hr hvar).hasRightLimit (ih (level + 1)) hx h

/-- Nothing but the value is read off where the expression has one. -/
theorem readsRight_of_value {name : String} {a q : ℚ} {x : Expr} (ha : DefinedAt (fun _ => a) x)
    (hvar : x.hasVar name = true) (hsubst : x.subst name (rat a) = rat q) (hq : (rat q).isDefined = true)
    (n level : ℕ) : ReadsRight name a n level x ∧ limitAt? (n + 1) level x name (rat a) = some (rat q) := by
  have hdefined : (x.subst name (rat a)).isDefined = true := hsubst ▸ hq
  constructor
  · cases n with
    | zero => trivial
    | succ n =>
      intro _
      constructor
      case value => exact fun _ => ha
      all_goals exact fun hfalse => (Bool.false_ne_true (hfalse.symm.trans hdefined)).elim
  · rw [limitAt?, hvar]
    simp [infinitySign?, defined?, hsubst, hq]

/-- The limit of a rational expression at a rational point is right, if the readings on the way to it are. -/
theorem limit_exact {name : String} {a : ℚ} {x L : Expr} (hx : RationalIn name x)
    (hr : ReadsRight name a limitLevels 0 x) (h : limit x name (rat a) = .ok L) : HasRightLimit a x L := by
  unfold limit at h
  split at h
  · rename_i l hl
    obtain rfl := Except.ok.inj h
    exact hr.hasRightLimit _ _ _ _ hx hl
  · cases h

/-- The square of `x` less one. -/
def squareLessOne : Expr := .add [.pow (.var "x") (rat 2), rat (-1)]

/-- `x` less one. -/
def xLessOne : Expr := .add [.var "x", rat (-1)]

/-- The quotient `(x² - 1) / (x - 1)`. -/
def removable : Expr := .mul [squareLessOne, .pow xLessOne (rat (-1))]

theorem readsRight_squareLessOne (n level : ℕ) : ReadsRight "x" 1 n level squareLessOne ∧
    limitAt? (n + 1) level squareLessOne "x" (rat 1) = some (rat 0) :=
  readsRight_of_value (by simp [squareLessOne]) rfl (by cbv) (by decide +kernel) n level

theorem readsRight_xLessOne (n level : ℕ) : ReadsRight "x" 1 n level xLessOne ∧
    limitAt? (n + 1) level xLessOne "x" (rat 1) = some (rat 0) :=
  readsRight_of_value (by simp [xLessOne]) rfl (by cbv) (by decide +kernel) n level

theorem readsRight_derivatives (n level : ℕ) :
    ReadsRight "x" 1 n level (derivative "x" squareLessOne / derivative "x" xLessOne).simplify ∧
      limitAt? (n + 1) level (derivative "x" squareLessOne / derivative "x" xLessOne).simplify "x" (rat 1) =
        some (rat 2) := by
  have hquot : derivative "x" squareLessOne / derivative "x" xLessOne = .mul [rat 2, .var "x"] := by cbv
  have hsimplify : (Expr.mul [rat 2, .var "x"]).simplify = .mul [rat 2, .var "x"] := by cbv
  rw [hquot, hsimplify]
  exact readsRight_of_value (by simp) rfl (by cbv) (by decide +kernel) n level

theorem quotientLimit?_removable (n level : ℕ) :
    quotientLimit? (limitAt? (n + 1) level) squareLessOne xLessOne "x" (rat 1) = some (rat 2) := by
  rw [quotientLimit?, (readsRight_squareLessOne n level).2, (readsRight_xLessOne n level).2]
  exact (readsRight_derivatives n level).2

theorem limitAsFraction?_removable (n level : ℕ) :
    limitAsFraction? (limitAt? (n + 1) level) removable "x" (rat 1) = some (rat 2) := by
  have hnum : removable.toFraction.num = squareLessOne := by cbv
  have hden : removable.toFraction.den = xLessOne := by cbv
  rw [limitAsFraction?, hnum, hden]
  exact quotientLimit?_removable n level

theorem subst_removable : removable.subst "x" (rat 1) = undefined := by cbv

/-- What is read off for the quotient. -/
theorem readsRight_removable (n level : ℕ) : ReadsRight "x" 1 (n + 2) level removable := by
  have hundefined : (removable.subst "x" (rat 1)).isDefined = false := by
    rw [subst_removable]
    decide
  have hnum : removable.toFraction.num = squareLessOne := by cbv
  have hden : removable.toFraction.den = xLessOne := by cbv
  have hlimit := limitAsFraction?_removable n (level + 1)
  intro _
  constructor
  case value => exact fun htrue => (Bool.false_ne_true (hundefined.symm.trans htrue)).elim
  case terms => exact fun _ ts hts => by cases hts
  case fraction =>
    intro _ _ _
    rw [hnum, hden]
    constructor
    case num =>
      refine ⟨(readsRight_squareLessOne _ _).1, fun L hL => ⟨.number 0, ?_⟩⟩
      rw [(readsRight_squareLessOne _ _).2] at hL
      exact (Option.some.inj hL).symm
    case den =>
      refine ⟨(readsRight_xLessOne _ _).1, fun L hL => ⟨.number 0, ?_⟩⟩
      rw [(readsRight_xLessOne _ _).2] at hL
      exact (Option.some.inj hL).symm
    case derivatives => exact fun _ _ _ _ _ => (readsRight_derivatives _ _).1
    case sign =>
      intro ln ld hln hld hind
      rw [(readsRight_squareLessOne _ _).2] at hln
      rw [(readsRight_xLessOne _ _).2] at hld
      obtain rfl := Option.some.inj hln
      obtain rfl := Option.some.inj hld
      cases hind
    case inverse =>
      intro ld hld hzero
      rw [(readsRight_xLessOne _ _).2] at hld
      obtain rfl := Option.some.inj hld
      cases hzero
  case product => exact fun _ _ hnone => by rw [hlimit] at hnone; cases hnone
  case estimate => exact fun _ _ hnone => by rw [hlimit] at hnone; cases hnone

/-- The quotient tends to two at one. -/
theorem limit_exact_removable : RationalIn "x" removable ∧ ReadsRight "x" 1 limitLevels 0 removable ∧
    limit removable "x" (rat 1) = .ok (rat 2) ∧ HasRightLimit 1 removable (rat 2) := by
  have hx : RationalIn "x" removable := by
    refine ⟨by simp [removable, squareLessOne, xLessOne, VarsIn, AllVarsIn], 0, ?_⟩
    simp [removable, squareLessOne, xLessOne, Interpretation.defined_pow, Interpretation.admits_point]
  have hlimit : limit removable "x" (rat 1) = .ok (rat 2) := by
    have hundefined : (removable.subst "x" (rat 1)).defined? = none := by
      rw [subst_removable]
      decide
    have hform : limitByForm? (limitAt? 8 1) removable "x" (rat 1) = none := rfl
    have hvar : removable.hasVar "x" = true := rfl
    rw [limit, limitLevels, limitAt?]
    simp [hvar, infinitySign?, hundefined, hform, limitAsFraction?_removable 7 1]
  exact ⟨hx, readsRight_removable 7 0, hlimit, limit_exact hx (readsRight_removable 7 0) hlimit⟩

/-! ## A sign at a fixed distance -/

/-- The quotient `(x - 10⁻⁹) / x²`. -/
def nearbyZero : Expr := .mul [.pow (.var "x") (rat (-2)), .add [.var "x", rat (-1 / 1000000000)]]

theorem nearbyZero_num : nearbyZero.toFraction.num = .add [.mul [rat 1000000000, .var "x"], rat (-1)] := by cbv

theorem nearbyZero_den : nearbyZero.toFraction.den = .mul [rat 1000000000, .pow (.var "x") (rat 2)] := by cbv

/-- To the right of zero the quotient tends to the negative infinity, although it is positive beyond `10⁻⁹`. -/
theorem hasRightLimit_nearbyZero : HasRightLimit 0 nearbyZero negInfinity := by
  have hx : RationalIn "x" nearbyZero := by
    refine ⟨by simp [nearbyZero, VarsIn, AllVarsIn], 1, ?_⟩
    simp [nearbyZero, Interpretation.defined_pow, Interpretation.admits_point]
  have hrat (b : ℚ) : valueAt (fun _ => b) nearbyZero =
      (Polynomial.X - Polynomial.C (1 / 1000000000) : Polynomial ℚ).eval b /
        (Polynomial.X ^ 2 : Polynomial ℚ).eval b := by
    simp only [nearbyZero, eval_mul, List.map_cons, List.map_nil, List.prod_cons, List.prod_nil, eval_pow, eval_add,
      eval_var, eval_rat, List.sum_cons, List.sum_nil, Polynomial.eval_sub, Polynomial.eval_X, Polynomial.eval_C,
      Polynomial.eval_pow, Reading.ofVars]
    change b ^ (-2 : ℤ) * ((b + (-1 / 1000000000 + 0)) * 1) = _
    rw [zpow_neg, zpow_ofNat]
    ring
  have hreal := hx.eventually_eq_div (pow_ne_zero 2 Polynomial.X_ne_zero) (.of_forall hrat) 0
  rw [Rat.cast_zero] at hreal
  have hlead : HasLead nearbyZero.realAt (0 : ℝ) (-2) (algebraMap ℚ ℝ (-1 / 1000000000)) := by
    have hcont : Tendsto (fun t : ℝ => t - 1 / 1000000000) (𝓝[>] 0) (𝓝 (0 - 1 / 1000000000)) :=
      (tendsto_id.mono_left nhdsWithin_le_nhds).sub_const _
    have hcoeff : algebraMap ℚ ℝ (-1 / 1000000000) = 0 - 1 / 1000000000 := by norm_num
    refine ⟨by norm_num, hcoeff ▸ hcont.congr' ?_⟩
    filter_upwards [hreal, eventually_sub_ne_zero (0 : ℝ)] with t ht h0
    rw [sub_zero] at h0
    simp only [ht, map_sub, map_pow, Polynomial.aeval_X, Polynomial.aeval_C, sub_zero, zpow_neg, zpow_ofNat,
      div_inv_eq_mul]
    rw [div_mul_cancel₀ _ (pow_ne_zero 2 h0)]
    norm_num
  have htendsto := hlead.tendsto_leadLimit
  rw [show leadLimit (-2) (-1 / 1000000000) = .negInf from Extended.signed_of_neg (by norm_num)] at htendsto
  exact ⟨hx.eventually_defined_real 0, .negInf, rfl, by simpa using htendsto⟩

/-- The answer has the sign that is read off at a fixed distance. -/
theorem limit_nearbyZero {s : Int}
    (hs : signRightOf? (nearbyZero.toFraction.num / nearbyZero.toFraction.den) "x" (rat 0) = some s) :
    limit nearbyZero "x" (rat 0) = .ok (infinityOf (0 < s)) := by
  have hn : limitAt? 8 1 nearbyZero.toFraction.num "x" (rat 0) = some (rat (-1)) :=
    (readsRight_of_value (by simp [nearbyZero_num]) (by rw [nearbyZero_num]; rfl) (by rw [nearbyZero_num]; cbv)
      (by decide +kernel) 7 1).2
  have hd : limitAt? 8 1 nearbyZero.toFraction.den "x" (rat 0) = some (rat 0) :=
    (readsRight_of_value (by simp [nearbyZero_den]) (by rw [nearbyZero_den]; rfl) (by rw [nearbyZero_den]; cbv)
      (by decide +kernel) 7 1).2
  have hsubst : nearbyZero.subst "x" (rat 0) = undefined := by cbv
  have hundefined : (nearbyZero.subst "x" (rat 0)).defined? = none := by
    rw [hsubst]
    decide
  have hvar : nearbyZero.hasVar "x" = true := rfl
  have hform : limitByForm? (limitAt? 8 1) nearbyZero "x" (rat 0) = none := rfl
  have hone : nearbyZero.toFraction.den.isOne = false := by
    rw [nearbyZero_den]
    rfl
  have hfraction : limitAsFraction? (limitAt? 8 1) nearbyZero "x" (rat 0) = some (infinityOf (0 < s)) := by
    simp [limitAsFraction?, hone, quotientLimit?, hn, hd, isZero, infinitySign?, hs]
  rw [limit, limitLevels, limitAt?]
  simp [hvar, infinitySign?, hundefined, hform, hfraction]

end SymbolicSolver.Expr
