import SymbolicSolver.Proofs.Canonical.Rounds

/-!
# Everything that is constructed is settled

A function looks at its argument and takes at most one minus sign out of it, unless the sign comes back: where the
argument is a product with several powers of one base, its negative has them put together and may be negative anew. But
then it has become lighter. So the signs that are taken out are soon at an end, and the application that stands at
last is left as it is by the function. With sums, products and powers this makes every tree settled that is
constructed.
-/

namespace SymbolicSolver.Expr

variable {x : Expr} {fs : List Expr} {f : Func} {n : Nat}

/-! ## Minus signs -/

/-- Whether a function looks for a minus sign in the argument and finds one. -/
def flips (x : Expr) : Bool := x.infinitySign?.isNone && x.hasMinus

theorem splitCoeff_assemble (h : PlainRow fs) (c : Rat) (inf : Bool) : (assemble c fs inf).splitCoeff.1 = c := by
  have hrow := h.row inf
  exact congrArg Prod.fst (splitCoeff_times hrow.notRat hrow.notProduct c)

theorem flips_infiniteProduct (h : PlainRow fs) {c : Rat} (hc : 0 < c) : flips (infiniteProduct c fs) = false := by
  simp only [infiniteProduct, if_neg hc.not_gt]
  split
  · split
    · rfl
    · split <;> rfl
  · simp [flips, hasMinus, splitCoeff_assemble h]

theorem hasMinus_cases (h : x.hasMinus = true) :
    (∃ q, x = rat q ∧ q < 0) ∨ ∃ c fs, x = mul (rat c :: fs) ∧ c < 0 := by
  rw [hasMinus, decide_eq_true_eq] at h
  unfold splitCoeff at h
  split at h
  · exact .inl ⟨_, rfl, h⟩
  · exact .inr ⟨_, _, rfl, h⟩
  · exact absurd h (by norm_num)

/-- A product with a positive coefficient whose factors are collected and rebuilt as they are. -/
theorem flips_multiplyOut {product : List Expr → Expr} (h : PlainRow fs) {c : Rat} (hc : 0 < c) (inf : Bool)
    (hlone : inf = true ∨ ∀ ts, fs ≠ [add ts]) : flips (multiplyOut product ⟨c, inf, fs⟩) = false := by
  rw [multiplyOut, if_neg hc.ne', any_isProduct_eq_false h.notProduct, if_neg Bool.false_ne_true]
  split
  · exact flips_infiniteProduct h hc
  · rename_i hinf
    split
    · rename_i ts hts
      exact absurd hts ((hlone.resolve_left hinf) ts)
    · simp [flips, hasMinus, splitCoeff_assemble h, hc.le]

theorem Settled.factors_defined (h : Settled (mul fs)) : ∀ f ∈ fs, Settled f ∧ f ≠ .undefined := by
  refine fun f hf => ⟨h.factors f hf, ?_⟩
  rintro rfl
  exact (regular_mul.1 (h.regular (by simp))).2 _ hf

theorem Settled.plainRow (h : Settled (mul fs)) : PlainRow (plainFactors fs) where
  regular f hf := (h.factors_defined f (mem_plainFactors.1 hf).1).1.regular (h.factors_defined f (mem_plainFactors.1 hf).1).2
  notProduct f hf := (regular_mul.1 (h.regular (by simp))).1.notProduct f (mem_plainFactors.1 hf).1
  notRat f hf := (mem_plainFactors.1 hf).2.1
  notInfinity f hf := (mem_plainFactors.1 hf).2.2

theorem flattenFactors_negated (h : ∀ f ∈ fs, f.isProduct = false) :
    flattenFactors [rat (-1), mul fs] = rat (-1) :: fs := by
  rw [flattenFactors, flattenFactors, flattenFactors_of_notProduct h, flattenFactors, List.append_nil]
  simp

/-- The negative of a product whose factors are collected and rebuilt as they are. -/
theorem flips_neg_of_single {c : Rat} (h : Settled (mul (rat c :: fs))) (hc : c < 0)
    (hsingle : (collectBases (rat (-1) :: rat c :: fs)).others = (plainFactors (rat c :: fs)).map asBase) (k : Nat) :
    flips (productWithin (k + 2) [rat (-1), mul (rat c :: fs)]) = false := by
  obtain ⟨hfs, -⟩ := regular_mul.1 (h.regular (by simp))
  have hrow := h.plainRow
  have hplain : ∀ f ∈ plainFactors (rat c :: fs), Settled f ∧ f ≠ undefined := fun f hf =>
    h.factors_defined f (mem_plainFactors.1 hf).1
  have hflat := flattenFactors_negated hfs.notProduct
  have hany : (rat (-1) :: rat c :: fs).any (· = undefined) = false :=
    any_undefined_eq_false_of_ne (List.forall_mem_cons.2 ⟨by simp, fun f hf => (h.factors_defined f hf).2⟩)
  have hbases : collectBases (rat (-1) :: rat c :: fs) =
      ⟨-c, infinity ∈ fs, (plainFactors (rat c :: fs)).map asBase⟩ := by
    have hnone : fs.filterMap rat? = [] := List.filterMap_eq_nil_iff.2 hfs.ratFirst
    rw [← hsingle, collectBases_parts]
    simp [rat?, hnone]
  rw [productWithin]
  simp only [productStep, hflat, hany, hbases, map_power_asBase hplain fun _ => Nat.succ_ne_zero k]
  rw [if_neg Bool.false_ne_true, any_undefined_eq_false_of_ne fun f hf => (hplain f hf).2, if_neg Bool.false_ne_true,
    collectRebuilt_parts, hrow.plainFactors_eq, List.filterMap_eq_nil_iff.2 hrow.notRat, List.prod_nil, mul_one]
  refine flips_multiplyOut hrow (neg_pos.2 hc) _ ?_
  by_cases hinf : infinity ∈ fs
  · simp [hinf]
  · -- a lone sum would have the coefficient spread
    refine .inr fun ts hts => hfs.notSpread c ts ?_
    have hfilter : plainFactors (rat c :: fs) = fs := by
      rw [← nonRats_eq_plainFactors (by simpa using hinf), nonRats, List.filter_cons_of_neg (by simp [rat?])]
      exact List.filter_eq_self.2 fun f hf => by simp [hfs.ratFirst f hf]
    rw [← hts, hfilter]

/-- The negative of a product with a negative coefficient. -/
theorem flips_neg_scaled {c : Rat} (h : Settled (mul (rat c :: fs))) (hc : c < 0) (k : Nat) :
    flips (productWithin (k + 2) [rat (-1), mul (rat c :: fs)]) = false ∨
      weight (productWithin (k + 2) [rat (-1), mul (rat c :: fs)]) < weight (mul (rat c :: fs)) := by
  obtain ⟨hfs, -⟩ := regular_mul.1 (h.regular (by simp))
  have hflat := flattenFactors_negated hfs.notProduct
  have hnotProduct : ∀ f ∈ rat (-1) :: rat c :: fs, f.isProduct = false := List.forall_mem_cons.2 ⟨rfl, hfs.notProduct⟩
  have hgathered := gathered_collectBases hnotProduct
  have hplain : plainFactors (rat (-1) :: rat c :: fs) = plainFactors (rat c :: fs) := by simp [plainFactors, rat?]
  rw [hplain] at hgathered
  rcases hgathered.all_single_or_saved with hsingle | ⟨f, hf, hsaved⟩
  · exact .inl (flips_neg_of_single h hc hsingle k)
  · right
    obtain ⟨hmem, hr, -⟩ := mem_plainFactors.1 hf
    have hpos := (h.factors f hmem).asBase_pos (h.factors_defined f hmem).2 hr (hfs.notProduct f hmem)
    have hle := weight_productStep_collected (within_weight (k + 1)).2 (within_weight (k + 1)).1
      [rat (-1), mul (rat c :: fs)]
    rw [hflat] at hle
    rw [weight_plainFactors, ← weight_mul] at hsaved
    rw [productWithin]
    omega

/-- The negative of a negative tree is not negative, or it is lighter. -/
theorem flips_neg (h : Settled x) (hx : flips x = true) : flips (-x) = false ∨ weight (-x) < weight x := by
  obtain ⟨k, hk⟩ := roundsFor_eq (sizeAll [rat (-1), x])
  have hneg : -x = productWithin (k + 4) [rat (-1), x] := by
    rw [← hk]
    rfl
  rw [hneg]
  rcases hasMinus_cases (Bool.and_eq_true_iff.1 hx).2 with ⟨q, rfl, hq⟩ | ⟨c, fs, rfl, hc⟩
  · left
    have hpos : ¬ -1 * q < 0 := by linarith
    rw [productWithin_rat_rat, flips, hasMinus, splitCoeff_rat, decide_eq_false hpos, Bool.and_false]
  · exact flips_neg_scaled h hc (k + 2)

/-! ## What a function makes of its argument -/

/-- The cases of an application with a round left. -/
inductive ApplyCase (f : Func) (x : Expr) : Prop
  | undefined (h : ∀ n, applyWithin (n + 1) f x = .undefined)
  | logarithm (hf : f = .log) (hu : x ≠ .undefined) (h : ∀ n, applyWithin (n + 1) f x = logarithm x)
  | special {v : Expr} (hv : specialValue? f x = some v) (h : ∀ n, applyWithin (n + 1) f x = v)
  | undone {u : Expr} (hu : undone? f x = some u) (h : ∀ n, applyWithin (n + 1) f x = u)
  | even (hx : flips x = true) (h : ∀ n, applyWithin (n + 1) f x = applyWithin n f (-x))
  | odd (hx : flips x = true) (h : ∀ n, applyWithin (n + 1) f x = -applyWithin n f (-x))
  | stands (hu : x ≠ .undefined) (h : ∀ n, applyWithin (n + 1) f x = fn f x)

theorem applyWithin_cases (f : Func) (x : Expr) : ApplyCase f x := by
  by_cases hu : x = undefined
  · exact .undefined fun n => by rw [applyWithin, if_pos hu]
  by_cases hlog : f = .log
  · exact .logarithm hlog hu fun n => by rw [applyWithin, if_neg hu, if_pos hlog]
  cases hv : specialValue? f x with
  | some v => exact .special hv fun n => by rw [applyWithin, if_neg hu, if_neg hlog, hv]
  | none =>
    have hplain (h : ∀ n, applyWithin (n + 1) f x = (undone? f x).getD (fn f x)) : ApplyCase f x := by
      cases hundone : undone? f x with
      | some u => exact .undone hundone fun n => by rw [h n, hundone, Option.getD_some]
      | none => exact .stands hu fun n => by rw [h n, hundone, Option.getD_none]
    by_cases hx : flips x = true
    · have hx' : (x.infinitySign?.isNone && x.hasMinus) = true := hx
      cases hparity : parity f with
      | even => exact .even hx fun n => by rw [applyWithin, if_neg hu, if_neg hlog, hv, hparity]; exact if_pos hx'
      | odd => exact .odd hx fun n => by rw [applyWithin, if_neg hu, if_neg hlog, hv, hparity]; exact if_pos hx'
      | none => exact hplain fun n => by rw [applyWithin, if_neg hu, if_neg hlog, hv, hparity]; exact if_pos hx'
    · exact hplain fun n => by rw [applyWithin, if_neg hu, if_neg hlog, hv]; exact if_neg hx

/-! ## Applications -/

/-- An application that stands. -/
theorem Settled.fn (h : Settled x) (hu : x ≠ .undefined) (hfn : apply f x = .fn f x) : Settled (.fn f x) :=
  .of_regular (h.regular hu) ⟨hfn, h.standing⟩

theorem apply_log (hu : x ≠ undefined) : apply .log x = logarithm x := by
  obtain ⟨k, hk⟩ := roundsFor_eq x.size
  rw [apply, hk, applyWithin, if_neg hu, if_pos rfl]

theorem logPositive_settled {q : Rat} (hq : 0 < q) : Settled (logPositive q) := by
  have hcall {r : Rat} (hr : 0 < r) (h1 : r ≠ 1) (hnum : r.num ≠ 1) : Settled (fn .log (rat r)) := by
    refine Settled.fn (.rat r) (by simp) ?_
    rw [apply_log (by simp), logarithm, if_neg hr.ne', if_neg hr.not_gt, logPositive, if_neg h1, if_neg hnum]
  unfold logPositive
  split
  · exact .rat 0
  rename_i h1
  split
  · -- the logarithm of the denominator
    rename_i hnum
    have hden : q.den ≠ 1 := fun hden => h1 (Rat.ext (by simpa using hnum) (by simpa using hden))
    refine invariant_settled.neg (hcall ?_ ?_ ?_)
    · exact_mod_cast q.den_pos
    · exact_mod_cast hden
    · rw [Rat.num_natCast]
      exact_mod_cast hden
  · exact hcall hq h1 ‹_›

theorem logarithm_settled (h : Settled x) (hu : x ≠ undefined) : Settled (logarithm x) := by
  have hstands (hfn : logarithm x = fn .log x) : Settled (fn .log x) := h.fn hu ((apply_log hu).trans hfn)
  cases x with
  | rat q =>
    rw [logarithm]
    split
    · exact invariant_settled.negInfinity
    rename_i h0
    split
    · have hturn : Settled (product [i, pi]) :=
        product_settled (by simpa using ⟨invariant_settled.i, invariant_settled.pi⟩)
      exact sum_settled (by simpa using ⟨logPositive_settled (neg_pos.2 ‹_›), hturn⟩)
    · exact logPositive_settled (lt_of_le_of_ne (not_lt.1 ‹_›) (Ne.symm h0))
  | e => exact .rat 1
  | infinity => exact invariant_settled.infinity
  | pow b u =>
    cases b with
    | e => exact h.exponent
    | _ => exact hstands rfl
  | _ => exact hstands rfl

/-- The rounds suffice for the signs: one for an argument without a sign to be taken out, and else one for each unit of
weight and two more. -/
theorem applyWithin_settled (f : Func) (n : Nat) {x : Expr} (h : Settled x) (hn : n ≠ 0)
    (hx : flips x = true → weight x + 2 ≤ n) : Settled (applyWithin n f x) := by
  induction n generalizing x with
  | zero => exact absurd rfl hn
  | succ n ih =>
    -- the negative is without such a sign, or it is lighter
    have hnegative (hflip : flips x = true) : Settled (applyWithin n f (-x)) := by
      have hlight := hx hflip
      refine ih (invariant_settled.neg h) (by omega) fun hagain => ?_
      have hlt := (flips_neg h hflip).resolve_left (by simp [hagain])
      omega
    cases applyWithin_cases f x with
    | undefined h => exact h n ▸ .undefined
    | logarithm hf hu hvalue => exact hvalue n ▸ logarithm_settled h hu
    | special hv hvalue => exact hvalue n ▸ invariant_settled.specialValue? hv
    | undone hu hvalue => exact hvalue n ▸ invariant_settled.undone? h hu
    | even hflip hvalue => exact hvalue n ▸ hnegative hflip
    | odd hflip hvalue => exact hvalue n ▸ invariant_settled.neg (hnegative hflip)
    | stands hu hvalue =>
      obtain ⟨k, hk⟩ := roundsFor_eq x.size
      refine hvalue n ▸ h.fn hu ?_
      rw [apply, hk, hvalue (k + 3)]

theorem apply_settled (f : Func) (h : Settled x) : Settled (apply f x) := by
  have hle := weight_le_baseWeight x
  have hlt := baseWeight_lt x
  have hrounds := roundsFor_eq_pow x.size
  exact applyWithin_settled f _ h (by omega) fun _ => by omega

/-! ## Everything that is constructed -/

/-- What is constructed is well formed, and its powers, applications and sums stand. -/
theorem constructed_settled (h : Constructed x) : Settled x := by
  induction h with
  | rat q => exact .rat q
  | pi => exact invariant_settled.pi
  | e => exact invariant_settled.e
  | i => exact invariant_settled.i
  | infinity => exact invariant_settled.infinity
  | undefined => exact .undefined
  | var s => exact .of_regular trivial trivial
  | sum _ ih => exact sum_settled ih
  | product _ ih => exact product_settled ih
  | power _ _ ihb ihx => exact power_settled ihb ihx
  | call f _ ih => exact apply_settled f ih

end SymbolicSolver.Expr
