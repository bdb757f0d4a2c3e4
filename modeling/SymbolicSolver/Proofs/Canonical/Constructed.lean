import Mathlib.Data.List.Permutation
import SymbolicSolver.Proofs.Canonical.Closed
import SymbolicSolver.Proofs.Canonical.RationalPower
import SymbolicSolver.Proofs.Canonical.Regular

/-!
# Canonical operations keep the invariant

Sums, products, powers and applications of well-formed trees are well formed. A product puts together powers that it has
rebuilt, and what it builds is a coefficient, a row of sorted factors and infinity; if a product is among the rebuilt
powers, everything is multiplied once more. This further product is one of regular factors other than zero that are
not a coefficient and a lone sum, and in the last round such factors are multiplied out at once. The one operand that
is not well formed by itself is a root of one that is out of the limits: a product rebuilds it to one.
-/

namespace SymbolicSolver.Expr

variable {x b : Expr} {ts fs gs : List Expr}

/-! ## Putting the factors together -/

/-- Regular factors that are neither products, rationals nor infinity. -/
structure PlainRow (fs : List Expr) : Prop where
  regular : ∀ f ∈ fs, Regular f
  notProduct : ∀ f ∈ fs, f.isProduct = false
  notRat : ∀ f ∈ fs, f.rat? = none
  notInfinity : ∀ f ∈ fs, f ≠ infinity

theorem PlainRow.plainFactors_eq (h : PlainRow fs) : plainFactors fs = fs :=
  List.filter_eq_self.2 fun f hf => by simp [h.notRat f hf, h.notInfinity f hf]

/-- Sorted factors, and possibly infinity behind them. -/
theorem PlainRow.row (h : PlainRow fs) (inf : Bool) :
    RegularRow (sortFactors fs ++ if inf then [infinity] else []) := by
  have hperm : (sortFactors fs).Perm fs := List.mergeSort_perm fs _
  have hs : PlainRow (sortFactors fs) :=
    ⟨fun f hf => h.regular f (hperm.mem_iff.1 hf), fun f hf => h.notProduct f (hperm.mem_iff.1 hf),
      fun f hf => h.notRat f (hperm.mem_iff.1 hf), fun f hf => h.notInfinity f (hperm.mem_iff.1 hf)⟩
  have hsorted : SortedBy compareFactors (plainFactors (sortFactors fs)) :=
    hs.plainFactors_eq.symm ▸ sortFactors_sorted fs
  have hinf : infinity ∉ sortFactors fs := fun hmem => hs.notInfinity _ hmem rfl
  cases inf with
  | false =>
    rw [if_neg Bool.false_ne_true, List.append_nil]
    exact ⟨hs.regular, hs.notRat, hs.notProduct, fun hmem => hinf (List.dropLast_subset _ hmem), hsorted⟩
  | true =>
    rw [if_pos rfl]
    refine ⟨?_, ?_, ?_, ?_, ?_⟩
    · exact List.forall_mem_append.2 ⟨hs.regular, by simp [Regular]⟩
    · exact List.forall_mem_append.2 ⟨hs.notRat, by simp [rat?]⟩
    · exact List.forall_mem_append.2 ⟨hs.notProduct, by simp [isProduct]⟩
    · simpa using hinf
    · simpa [plainFactors] using hsorted

theorem PlainRow.assemble (h : PlainRow fs) {c : Rat} (hc : c ≠ 0) (inf : Bool)
    (hlone : c = 1 ∨ inf = true ∨ ∀ ts, fs ≠ [add ts]) : Regular (assemble c fs inf) := by
  refine (h.row inf).times hc (hlone.imp_right fun hlone ts hts => ?_)
  cases inf with
  | false =>
    rw [if_neg Bool.false_ne_true, List.append_nil] at hts
    have hperm : fs.Perm [add ts] := hts ▸ (List.mergeSort_perm fs _).symm
    exact hlone.resolve_left Bool.false_ne_true ts (List.perm_singleton.1 hperm)
  | true =>
    have hmem : infinity ∈ [add ts] := hts ▸ by simp
    simp at hmem

theorem PlainRow.infiniteProduct (h : PlainRow fs) (c : Rat) : WellFormed (infiniteProduct c fs) := by
  have hunit : (((if c < 0 then -1 else 1 : Int) : Int) : Rat) ≠ 0 := by split <;> norm_num
  simp only [Expr.infiniteProduct]
  generalize (if c < 0 then (-1 : Int) else 1) = unit at hunit ⊢
  split
  · split
    · exact wellFormed_undefined
    · split
      · exact Regular.wellFormed trivial
      · exact regular_negInfinity.wellFormed
  · exact (h.assemble hunit true (.inr (.inl rfl))).wellFormed

/-! ## Further products -/

/-- The factors with which a product starts a further one. -/
structure Restart (fs : List Expr) : Prop where
  regular : ∀ f ∈ fs, Regular f
  notZero : ∀ f ∈ fs, f.isZero = false
  notLone : ∀ ts, nonRats (flattenFactors fs) ≠ [add ts]

/-- The factors of a product are not rationals and a lone sum. -/
theorem RegularFactors.notLone (h : RegularFactors fs) (hfs : ∀ f ∈ fs, Regular f) :
    nonRats fs ≠ [] ∧ ∀ ts, nonRats fs ≠ [add ts] := by
  have hrow {gs : List Expr} (hgs : RegularRow gs) : nonRats gs = gs :=
    List.filter_eq_self.2 fun f hf => by simp [hgs.notRat f hf]
  rcases h.cases hfs with hgs | ⟨c, gs, rfl, -, -, hne, hgs, hlone⟩
  · rw [hrow hgs]
    refine ⟨?_, ?_⟩
    · rintro rfl
      simpa using h.twoFactors
    · rintro ts rfl
      simpa using h.twoFactors
  · have hrat : nonRats (rat c :: gs) = gs := by
      rw [← hrow hgs]
      simp [nonRats, rat?]
    rw [hrat]
    exact ⟨hne, hlone⟩

theorem nonRats_append (xs ys : List Expr) : nonRats (xs ++ ys) = nonRats xs ++ nonRats ys :=
  List.filter_append ..

/-- A product among the factors leaves more than a lone sum. -/
theorem notLone_of_product (h : Regular (mul gs)) (xs ys ts : List Expr) :
    nonRats (flattenFactors (xs ++ mul gs :: ys)) ≠ [add ts] := by
  obtain ⟨hgs, hregular⟩ := regular_mul.1 h
  obtain ⟨hne, hlone⟩ := hgs.notLone hregular
  rw [flattenFactors_append, flattenFactors, flattenFactors_of_notProduct hgs.notProduct, nonRats_append, nonRats_append]
  intro heq
  have hsub : (nonRats gs).Sublist [add ts] := by
    rw [← heq]
    exact (List.sublist_append_left _ _).trans (List.sublist_append_right _ _)
  rcases List.sublist_singleton.1 hsub with hnil | hadd
  · exact hne hnil
  · exact hlone ts hadd

/-- Rebuilt powers with a product among them, the coefficient and possibly infinity. -/
theorem restart_others (hfs : ∀ f ∈ fs, Regular f) (hrat : ∀ f ∈ fs, f.rat? = none) (hany : fs.any isProduct = true)
    {c : Rat} (hc : c ≠ 0) (inf : Bool) : Restart (fs ++ rat c :: if inf then [infinity] else []) := by
  have hinf : ∀ f ∈ (if inf then [infinity] else []), Regular f ∧ f.isZero = false := by
    cases inf <;> simp [Regular, isZero]
  refine ⟨?_, ?_, fun ts => ?_⟩
  · exact List.forall_mem_append.2 ⟨hfs, List.forall_mem_cons.2 ⟨regular_rat c, fun f hf => (hinf f hf).1⟩⟩
  · exact List.forall_mem_append.2 ⟨fun f hf => isZero_of_rat?_eq_none (hrat f hf),
      List.forall_mem_cons.2 ⟨by simpa [isZero] using hc, fun f hf => (hinf f hf).2⟩⟩
  · obtain ⟨f, hf, hp⟩ := List.any_eq_true.1 hany
    cases f with
    | mul gs =>
      obtain ⟨xs, ys, rfl⟩ := List.append_of_mem hf
      rw [List.append_assoc, List.cons_append]
      exact notLone_of_product (hfs _ hf) xs (ys ++ _) ts
    | _ => cases hp

/-- A coefficient before a term of a sum. -/
theorem restart_term (h : Regular (add ts)) {t : Expr} (ht : t ∈ ts) {c : Rat} (hc : c ≠ 0) : Restart [rat c, t] := by
  obtain ⟨hterms, hregular⟩ := regular_add.1 h
  refine ⟨by simpa using hregular t ht, by simpa [isZero, hc] using hterms.notZero t ht, fun us => ?_⟩
  by_cases hp : t.isProduct = true
  · cases t with
    | mul gs => exact notLone_of_product (hregular _ ht) [rat c] [] us
    | _ => cases hp
  · rw [flattenFactors_of_notProduct (by simpa [isProduct] using hp)]
    intro heq
    have hmem : add us ∈ [rat c, t] := List.mem_of_mem_filter (heq ▸ List.mem_singleton_self (add us))
    obtain rfl : t = add us := by simpa [eq_comm] using hmem
    cases hterms.notSum _ ht

theorem flattenFactors_regular (h : ∀ f ∈ fs, Regular f ∧ f.isZero = false) :
    ∀ f ∈ flattenFactors fs, (Regular f ∧ f.isZero = false) ∧ f.isProduct = false := by
  refine flattenFactors_all (fun {ys} hy f hf => ?_) h
  obtain ⟨hys, hregular⟩ := regular_mul.1 hy.1
  refine ⟨hregular f hf, ?_⟩
  rcases hys.cases hregular with hrow | ⟨c, gs, rfl, hc, -, -, hrow, -⟩
  · exact isZero_of_rat?_eq_none (hrow.notRat f hf)
  · rcases List.mem_cons.1 hf with rfl | hf
    · simpa [isZero] using hc
    · exact isZero_of_rat?_eq_none (hrow.notRat f hf)

theorem nonRats_eq_plainFactors (h : infinity ∉ fs) : nonRats fs = plainFactors fs :=
  List.filter_congr fun f hf => by
    have hne : f ≠ infinity := fun heq => h (heq ▸ hf)
    simp [hne]

/-- The product of the last round. -/
theorem Restart.plainProduct (h : Restart fs) : Regular (plainProduct fs) := by
  have hflat := flattenFactors_regular fun f hf => ⟨h.regular f hf, h.notZero f hf⟩
  have hrow : PlainRow (plainFactors (flattenFactors fs)) :=
    ⟨fun f hf => (hflat f (mem_plainFactors.1 hf).1).1.1, fun f hf => (hflat f (mem_plainFactors.1 hf).1).2,
      fun f hf => (mem_plainFactors.1 hf).2.1, fun f hf => (mem_plainFactors.1 hf).2.2⟩
  have hcoeff : 1 * ((flattenFactors fs).filterMap rat?).prod ≠ 0 := by
    rw [one_mul]
    refine List.prod_ne_zero fun hmem => ?_
    obtain ⟨f, hf, hq⟩ := List.mem_filterMap.1 hmem
    have hzero := (hflat f hf).1.2
    rw [eq_rat_of_rat? hq] at hzero
    simp [isZero] at hzero
  rw [Expr.plainProduct, collectRebuilt_parts]
  refine hrow.assemble hcoeff _ (.inr ?_)
  by_cases hinf : infinity ∈ flattenFactors fs
  · exact .inl (by simpa using hinf)
  · exact .inr (nonRats_eq_plainFactors hinf ▸ h.notLone)

/-! ## One round of the product -/

section Product

variable {power : Expr → Expr → Expr} {product : List Expr → Expr}

theorem multiplyOut_wellFormed (hprod : ∀ fs, Restart fs → WellFormed (product fs)) {parts : FactorGroups Expr}
    (hregular : ∀ f ∈ parts.others, Regular f) (hrat : ∀ f ∈ parts.others, f.rat? = none)
    (hinf : ∀ f ∈ parts.others, f ≠ infinity) : WellFormed (multiplyOut product parts) := by
  unfold multiplyOut
  split
  · split
    · exact wellFormed_undefined
    · exact (regular_rat 0).wellFormed
  rename_i hc
  split
  · -- a factor is a product: everything goes round once more
    rename_i hany
    exact hprod _ (restart_others hregular hrat hany hc parts.hasInfinity)
  · rename_i hany
    have hrow : PlainRow parts.others :=
      ⟨hregular, fun f hf => by simpa using List.any_eq_false.1 (by simpa using hany) f hf, hrat, hinf⟩
    split
    · exact hrow.infiniteProduct _
    · split
      · rename_i ts hts
        have hadd : Regular (add ts) := hregular _ (by simp [hts])
        split
        · exact hadd.wellFormed
        · -- the coefficient spreads over the terms of a lone sum
          refine sum_wellFormed fun t ht => ?_
          obtain ⟨u, hu, rfl⟩ := List.mem_map.1 ht
          exact hprod _ (restart_term hadd hu hc)
      · rename_i hnot
        exact (hrow.assemble hc false (.inr (.inr hnot))).wellFormed

/-- What a product takes: well-formed trees, and powers of rationals that are not evaluated. -/
def Operand (x : Expr) : Prop := WellFormed x ∨ ∃ p q, x = pow (rat p) (rat q)

theorem WellFormed.operand (h : WellFormed x) : Operand x := .inl h

theorem flattenFactors_operand (h : ∀ f ∈ fs, Operand f) : ∀ f ∈ flattenFactors fs, Operand f := by
  refine fun f hf => (flattenFactors_all (fun {ys} hy g hg => ?_) h f hf).1
  have hwell : WellFormed (mul ys) := hy.resolve_right (by simp)
  exact ((regular_mul.1 (hwell.regular (by simp))).2 g hg).wellFormed.operand

theorem productStep_wellFormed (hpow : ∀ b x, WellFormed b → WellFormed x → WellFormed (power b x))
    (hprod : ∀ fs, Restart fs → WellFormed (product fs)) (h : ∀ f ∈ fs, Operand f) :
    WellFormed (productStep power product fs) := by
  have hflat := flattenFactors_operand h
  simp only [productStep]
  split
  · exact wellFormed_undefined
  rename_i hany
  have hbases : ∀ g ∈ (collectBases (flattenFactors fs)).others, WellFormed g.1 ∧ WellFormed g.2 := by
    refine collectBases_all (P := fun b x => WellFormed b ∧ WellFormed x)
      (fun hx hy => ⟨hx.1, sum_wellFormed (by simpa using ⟨hx.2, hy.2⟩)⟩) fun f hf _ _ => ?_
    have hdef : f ≠ undefined := fun heq => hany (List.any_eq_true.2 ⟨f, hf, by simpa using heq⟩)
    rcases hflat f hf with hwell | ⟨p, q, rfl⟩
    · have hregular := hwell.regular hdef
      cases f with
      | pow b x => exact ⟨hregular.2.1.wellFormed, hregular.2.2.wellFormed⟩
      | _ => exact ⟨hwell, (regular_rat 1).wellFormed⟩
    · exact ⟨(regular_rat p).wellFormed, (regular_rat q).wellFormed⟩
  generalize collectBases (flattenFactors fs) = bases at hbases ⊢
  split
  · exact wellFormed_undefined
  rename_i hany
  have hrebuilt : ∀ f ∈ bases.others.map fun g => power g.1 g.2, Regular f := by
    intro f hf
    have hdef : f ≠ undefined := fun heq => hany (List.any_eq_true.2 ⟨f, hf, by simpa using heq⟩)
    obtain ⟨g, hg, rfl⟩ := List.mem_map.1 hf
    exact (hpow _ _ (hbases g hg).1 (hbases g hg).2).regular hdef
  rw [collectRebuilt_parts]
  exact multiplyOut_wellFormed hprod (fun f hf => hrebuilt f (mem_plainFactors.1 hf).1)
    (fun f hf => (mem_plainFactors.1 hf).2.1) fun f hf => (mem_plainFactors.1 hf).2.2

end Product

/-! ## One round of the power -/

theorem regular_pow (hb : Regular b) (hx : Regular x) (h0 : x.isZero = false) (h1 : x.isOne = false)
    (hbase : b.isOne = false) : Regular (pow b x) :=
  ⟨⟨h0, h1, hbase⟩, hb, hx⟩

theorem plainPower_wellFormed (hb : WellFormed b) (hx : WellFormed x) : WellFormed (plainPower b x) := by
  unfold plainPower
  split_ifs with hundef h0 h1 hbase
  · exact wellFormed_undefined
  · exact (regular_rat 1).wellFormed
  · exact hb
  · exact (regular_rat 1).wellFormed
  · exact wellFormed_undefined
  · rw [not_or] at hundef
    exact (regular_pow (hb.regular hundef.1) (hx.regular hundef.2) (by simpa using h0) (by simpa using h1)
      (by simpa using hbase)).wellFormed

theorem regular_iPower (n : Int) : Regular (iPower n) := by
  unfold iPower
  split
  · exact regular_rat 1
  · trivial
  · exact regular_rat (-1)
  · exact regular_mul.2 ⟨(RegularRow.singleton (x := i) trivial rfl rfl).scaled (by norm_num) (by norm_num) (by simp)
      (by simp), by simp [Regular]⟩

theorem Root.Proper.regular {q : Nat} {t : Root} (h : t.Proper q) : Regular t.factor := by
  have h0 : t.2 ≠ 0 := h.pos.ne'
  have h1 : t.2 ≠ 1 := h.lt_one.ne
  have hbase : (t.1 : Rat) ≠ 1 := by exact_mod_cast h.one_lt.ne'
  exact regular_pow (regular_rat _) (regular_rat _) (by simpa [isZero] using h0) (by simpa [isOne] using h1)
    (by simpa [isOne] using hbase)

/-- Roots of a positive rational stand behind their coefficient in order. -/
theorem regular_positiveRoot {b q : Rat} (hb : 0 < b) (hq : q.den ≠ 1) (hfits : powerFits b q.floor = true) :
    Regular (positiveRoot b q) := by
  obtain ⟨hp, hpq, -⟩ := exponent_split hq
  have hform := positiveRoot_eq_times hfits
  generalize (q - q.floor).num.natAbs = p at hp hpq hform
  have hnum : 0 < b.num.natAbs := Int.natAbs_pos.2 (Rat.num_ne_zero.2 hb.ne')
  obtain ⟨s, ts, htop, hs, hts, -⟩ := radical_exact hnum hp hpq
  obtain ⟨u, us, hbottom, hu, hus, -⟩ := radical_exact b.den_pos (Nat.sub_pos_of_lt hpq) (Nat.sub_lt q.den_pos hp)
  simp only [htop, hbottom, ← List.map_append] at hform
  have hroots : PlainRow ((ts ++ us).map Root.factor) := by
    have hfactor : ∀ f ∈ (ts ++ us).map Root.factor, ∃ t : Root, f = t.factor ∧ t.Proper q.den := by
      intro f hf
      obtain ⟨t, ht, rfl⟩ := List.mem_map.1 hf
      exact ⟨t, rfl, (List.mem_append.1 ht).elim (hts t) (hus t)⟩
    refine ⟨fun f hf => ?_, fun f hf => ?_, fun f hf => ?_, fun f hf => ?_⟩ <;> obtain ⟨t, rfl, ht⟩ := hfactor f hf
    · exact ht.regular
    · rfl
    · rfl
    · exact Expr.noConfusion
  have hc : Rational.power b q.floor * s * (u / b.den) ≠ 0 := by
    rw [Rational.power_eq_zpow]
    have hs' : (s : Rat) ≠ 0 := by exact_mod_cast hs.ne'
    have hu' : (u : Rat) ≠ 0 := by exact_mod_cast hu.ne'
    have hd : (b.den : Rat) ≠ 0 := by exact_mod_cast b.den_nz
    exact mul_ne_zero (mul_ne_zero (zpow_ne_zero _ hb.ne') hs') (div_ne_zero hu' hd)
  have hrow := hroots.row false
  rw [if_neg Bool.false_ne_true, List.append_nil] at hrow
  rw [hform]
  refine hrow.times hc (.inr fun ts hlone => ?_)
  have hmem : add ts ∈ (_ : List Root).map Root.factor :=
    (List.mergeSort_perm _ _).mem_iff.1 (hlone ▸ List.mem_singleton_self (add ts))
  obtain ⟨t, -, ht⟩ := List.mem_map.1 hmem
  cases ht

section Power

variable {power : Expr → Expr → Expr} {product : List Expr → Expr}

theorem rationalPower_wellFormed (hprod : ∀ fs, (∀ f ∈ fs, Operand f) → WellFormed (product fs)) {b q : Rat}
    (h0 : q ≠ 0) (h1 : q ≠ 1) (hb1 : b ≠ 1) : WellFormed (rationalPower product b q) := by
  have hkept : WellFormed (pow (rat b) (rat q)) :=
    (regular_pow (regular_rat b) (regular_rat q) (by simpa [isZero] using h0) (by simpa [isOne] using h1)
      (by simpa [isOne] using hb1)).wellFormed
  -- a root is put together, or stands as a power that a product rebuilds
  have hroot {c : Rat} (hc : 0 < c) (hq : q.den ≠ 1) :
      Regular (positiveRoot c q) ∨ positiveRoot c q = pow (rat c) (rat q) := by
    cases hfits : powerFits c q.floor with
    | true => exact .inl (regular_positiveRoot hc hq hfits)
    | false => exact .inr (by simp [positiveRoot, hfits])
  unfold rationalPower
  split
  · split
    · exact (regular_rat 0).wellFormed
    · exact wellFormed_undefined
  rename_i hb0
  split
  · split
    · exact (regular_rat _).wellFormed
    · exact hkept
  rename_i hq
  split
  · exact hkept
  split
  · rename_i hneg
    split
    · refine hprod _ ?_
      simp only [List.forall_mem_cons, List.not_mem_nil, false_implies, implies_true, and_true]
      exact ⟨(regular_iPower _).wellFormed.operand,
        (hroot (neg_pos.2 hneg) hq).imp Regular.wellFormed fun heq => ⟨_, _, heq⟩⟩
    · exact hkept
  · rename_i hneg
    rcases hroot (lt_of_le_of_ne (not_lt.1 hneg) (Ne.symm hb0)) hq with hregular | heq
    · exact hregular.wellFormed
    · exact heq ▸ hkept

variable (hb : Regular b) (hx : Regular x) (h0 : x.isZero = false) (h1 : x.isOne = false) (hb1 : b.isOne = false)

include hb hx h0 h1 hb1

theorem infinitePower_wellFormed (sign : Int) : WellFormed (infinitePower b x sign) := by
  have hkept : WellFormed (pow b x) := (regular_pow hb hx h0 h1 hb1).wellFormed
  have hinf : WellFormed infinity := Regular.wellFormed trivial
  have hzero : WellFormed zero := (regular_rat 0).wellFormed
  simp only [infinitePower]
  split
  · exact hkept
  split
  · exact hkept
  split
  · exact hkept
  repeat' split
  all_goals first | exact hkept | exact hinf | exact hzero | exact wellFormed_undefined

theorem infiniteBase_wellFormed (sign : Int) : WellFormed (infiniteBase b x sign) := by
  have hkept : WellFormed (pow b x) := (regular_pow hb hx h0 h1 hb1).wellFormed
  have hinf : WellFormed infinity := Regular.wellFormed trivial
  unfold infiniteBase
  split
  · split
    · exact hinf
    · split
      · split
        · exact hinf
        · exact regular_negInfinity.wellFormed
      · exact hkept
  · exact (regular_rat 0).wellFormed
  · exact hkept

theorem powerOfBase_wellFormed (hpow : ∀ b x, WellFormed b → WellFormed x → WellFormed (power b x))
    (hprod : ∀ fs, (∀ f ∈ fs, Operand f) → WellFormed (product fs)) : WellFormed (powerOfBase power product b x) := by
  have hkept : WellFormed (pow b x) := (regular_pow hb hx h0 h1 hb1).wellFormed
  unfold powerOfBase
  split
  · rename_i b0 x0
    split
    · refine hpow _ _ hb.2.1.wellFormed (hprod _ ?_)
      simpa using ⟨hb.2.2.wellFormed.operand, hx.wellFormed.operand⟩
    · exact hkept
  · rename_i fs
    obtain ⟨hfs, hregular⟩ := regular_mul.1 hb
    split
    · refine hprod _ fun f hf => ?_
      obtain ⟨g, hg, rfl⟩ := List.mem_map.1 hf
      exact (hpow g x (hregular g hg).wellFormed hx.wellFormed).operand
    · split
      · rename_i c rest
        split
        · -- the positive coefficient is taken out, and the rest keeps the exponent
          have hrest : Regular (ofFactors rest) := hb.splitCoeff
          have hone : (ofFactors rest).isOne = false := by
            unfold ofFactors
            split
            · exact isOne_of_rat?_eq_none (hfs.ratFirst _ (by simp))
            · rfl
          refine hprod _ ?_
          simp only [List.forall_mem_cons, List.not_mem_nil, false_implies, implies_true, and_true]
          exact ⟨(hpow _ _ (regular_rat c).wellFormed hx.wellFormed).operand,
            (regular_pow hrest hx h0 h1 hone).wellFormed.operand⟩
        · exact hkept
      · exact hkept
  · exact hkept

omit hb hx h0 h1 hb1 in
theorem powerStep_wellFormed (hpow : ∀ b x, WellFormed b → WellFormed x → WellFormed (power b x))
    (hprod : ∀ fs, (∀ f ∈ fs, Operand f) → WellFormed (product fs)) (hb : WellFormed b) (hx : WellFormed x) :
    WellFormed (powerStep power product b x) := by
  unfold powerStep
  split
  · exact wellFormed_undefined
  rename_i hundef
  rw [not_or] at hundef
  have hb := hb.regular hundef.1
  have hx := hx.regular hundef.2
  split
  · exact (regular_rat 1).wellFormed
  rename_i h0
  split
  · exact hb.wellFormed
  rename_i h1
  split
  · split
    · exact (regular_rat 1).wellFormed
    · exact wellFormed_undefined
  rename_i hb1
  rw [Bool.not_eq_true] at h0 h1 hb1
  split
  · exact infinitePower_wellFormed hb hx h0 h1 hb1 _
  · exact infiniteBase_wellFormed hb hx h0 h1 hb1 _
  · split
    · exact rationalPower_wellFormed hprod (by simpa [isZero] using h0) (by simpa [isOne] using h1)
        (by simpa [isOne] using hb1)
    · split
      · exact (regular_iPower _).wellFormed
      · exact powerOfBase_wellFormed hb hx h0 h1 hb1 hpow hprod
    · exact Regular.wellFormed hx
    · -- the coefficient of a logarithm in the exponent of `e` becomes the exponent
      have hlog := (regular_mul.1 hx).2 _ (List.mem_cons_of_mem _ (List.mem_singleton_self _))
      exact hpow _ _ (Regular.wellFormed hlog) (regular_rat _).wellFormed
    · exact powerOfBase_wellFormed hb hx h0 h1 hb1 hpow hprod

end Power

/-! ## All rounds -/

theorem within_wellFormed (n : Nat) : (∀ fs, (∀ f ∈ fs, Operand f) → WellFormed (productWithin n fs)) ∧
    ∀ b x, WellFormed b → WellFormed x → WellFormed (powerWithin n b x) := by
  induction n with
  | zero =>
    exact ⟨fun fs => productStep_wellFormed (fun _ _ => plainPower_wellFormed) fun _ h => h.plainProduct.wellFormed,
      fun _ _ => plainPower_wellFormed⟩
  | succ n ih =>
    obtain ⟨hprod, hpow⟩ := ih
    exact ⟨fun fs => productStep_wellFormed hpow fun fs h => hprod fs fun f hf => (h.regular f hf).wellFormed.operand,
      fun _ _ => powerStep_wellFormed hpow hprod⟩

theorem product_wellFormed (h : ∀ f ∈ fs, WellFormed f) : WellFormed (product fs) :=
  (within_wellFormed _).1 fs fun f hf => (h f hf).operand

theorem power_wellFormed (hb : WellFormed b) (hx : WellFormed x) : WellFormed (power b x) :=
  (within_wellFormed _).2 b x hb hx

/-! ## Everything that is constructed -/

theorem closed_wellFormed : Closed WellFormed where
  rat q := (regular_rat q).wellFormed
  pi := Regular.wellFormed trivial
  e := Regular.wellFormed trivial
  i := Regular.wellFormed trivial
  infinity := Regular.wellFormed trivial
  negInfinity := regular_negInfinity.wellFormed
  undefined := wellFormed_undefined
  sum := sum_wellFormed
  product := product_wellFormed
  power := power_wellFormed
  add h t ht := ((regular_add.1 (h.regular (by simp))).2 t ht).wellFormed
  mul h f hf := ((regular_mul.1 (h.regular (by simp))).2 f hf).wellFormed
  pow h := ⟨(h.regular (by simp)).2.1.wellFormed, (h.regular (by simp)).2.2.wellFormed⟩
  arg h := Regular.wellFormed (h.regular (by simp))
  splitCoeff {x} h := by
    rcases h with rfl | h
    · exact wellFormed_undefined
    · exact h.splitCoeff.wellFormed
  fn h hx := Regular.wellFormed (h.regular hx)

/-- What sums, products, powers and applications build from the leaves. -/
inductive Constructed : Expr → Prop
  | rat (q : Rat) : Constructed (rat q)
  | pi : Constructed pi
  | e : Constructed e
  | i : Constructed i
  | infinity : Constructed infinity
  | undefined : Constructed undefined
  | var (s : String) : Constructed (var s)
  | sum {ts : List Expr} (h : ∀ t ∈ ts, Constructed t) : Constructed (sum ts)
  | product {fs : List Expr} (h : ∀ f ∈ fs, Constructed f) : Constructed (product fs)
  | power {b x : Expr} (hb : Constructed b) (hx : Constructed x) : Constructed (power b x)
  | call (f : Func) {x : Expr} (hx : Constructed x) : Constructed (apply f x)

/-- What is constructed is the undefined value, or satisfies the invariant at every node. -/
theorem constructed_wellFormed (h : Constructed x) : x = undefined ∨ Regular x := by
  induction h with
  | rat | pi | e | i | infinity | var => exact .inr trivial
  | undefined => exact .inl rfl
  | sum _ ih => exact sum_wellFormed ih
  | product _ ih => exact product_wellFormed ih
  | power _ _ ihb ihx => exact power_wellFormed ihb ihx
  | call f _ ih => exact closed_wellFormed.apply f ih

/-- Twice `x + 1`: the coefficient spreads over the sum, and both terms stay in order. -/
theorem constructed_wellFormed_spread :
    product [rat 2, sum [var "x", rat 1]] = add [mul [rat 2, var "x"], rat 2] ∧
      Regular (add [mul [rat 2, var "x"], rat 2]) := by
  have hsum : Constructed (sum [var "x", rat 1]) := .sum (by simp [Constructed.var, Constructed.rat])
  have hproduct : Constructed (product [rat 2, sum [var "x", rat 1]]) := .product (by simp [Constructed.rat, hsum])
  have hvalue : product [rat 2, sum [var "x", rat 1]] = add [mul [rat 2, var "x"], rat 2] := by cbv
  have hregular := constructed_wellFormed hproduct
  rw [hvalue] at hregular
  exact ⟨hvalue, hregular.resolve_left (by simp)⟩

end SymbolicSolver.Expr
