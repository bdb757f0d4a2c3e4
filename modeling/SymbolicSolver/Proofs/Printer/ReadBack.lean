import SymbolicSolver.Proofs.Canonical.Stable
import SymbolicSolver.Proofs.Printer.Basic
import SymbolicSolver.Proofs.Printer.Formula

/-!
# Reading back what is printed

The text of a stable rational expression is read back to an expression with the same value. By induction on the number
of levels, every expression shows its own value in the place where it is printed: a sum in parentheses or alone, a
product behind a sign, and a power where only a power may stand. Two shapes would not be read back. A sum with a
coefficient in front would be printed after a minus sign without parentheses, but no canonical sum has such a term. The
reciprocal of a fraction would be printed below the fraction bar as a fraction without parentheses; such a reciprocal
stands in a tree only if the fraction is too large to invert.
-/

namespace SymbolicSolver

open Token Postfix

namespace Expr

/-! ## Legible expressions -/

/-- Names that the reader takes for variables. -/
structure IsVariable (s : String) : Prop where
  name : IsName s
  notFunction : isFunctionName s = false
  notConstant : s ∉ ["pi", "E", "I", "oo"]

mutual

/-- Rational expressions whose variables the reader knows as such, and in which no product has the reciprocal of a
fraction among its factors. -/
def Legible : Expr → Prop
  | rat _ => True
  | var s => IsVariable s
  | add ts => AllLegible ts
  | mul fs => AllLegible fs ∧ ∀ q, pow (rat q) (rat (-1)) ∈ fs → q.den = 1
  | pow b (rat n) => Legible b ∧ n.den = 1
  | _ => False

/-- Every expression of a list is legible. -/
def AllLegible : List Expr → Prop
  | [] => True
  | x :: xs => Legible x ∧ AllLegible xs

end

theorem allLegible_iff (xs : List Expr) : AllLegible xs ↔ ∀ x ∈ xs, Legible x := by
  induction xs with
  | nil => simp [AllLegible]
  | cons x xs ih => simp [AllLegible, ih]

theorem legible_add (ts : List Expr) : Legible (add ts) ↔ ∀ t ∈ ts, Legible t := by
  rw [← allLegible_iff]
  rfl

theorem legible_mul (fs : List Expr) :
    Legible (mul fs) ↔ (∀ f ∈ fs, Legible f) ∧ ∀ q, pow (rat q) (rat (-1)) ∈ fs → q.den = 1 := by
  rw [← allLegible_iff]
  rfl

/-! ## Reciprocals -/

@[simp] theorem eval_reciprocal (r : Reading) (x : Expr) : eval r (pow x (rat (-1))) = (eval r x)⁻¹ := by
  have h := eval_pow_int (r := r) x (-1)
  rwa [Int.cast_neg, Int.cast_one, zpow_neg_one] at h

@[simp] theorem defined_reciprocal (r : Reading) (x : Expr) :
    Defined r (pow x (rat (-1))) ↔ Defined r x ∧ eval r x ≠ 0 := by
  simp [defined_pow]

/-! ## Numbers and names -/

theorem natAbs_cast_of_nonneg {n : Int} (h : 0 ≤ n) : ((n.natAbs : Nat) : Rat) = n := by
  rw [← Int.cast_natCast, Int.natAbs_of_nonneg h]

namespace Shows

theorem var {s : String} (h : IsVariable s) : Shows .atom s.toList (var s) := by
  obtain ⟨hname, hfun, hconst⟩ := h
  refine ⟨_, _, spells_name hname, .name s hfun, fun r => ?_⟩
  have hatom : (Tree.atom s hfun).value = Expr.var s := by
    simp only [List.mem_cons, List.not_mem_nil, or_false, not_or] at hconst
    simp [Tree.value, atom, hconst]
  rw [hatom]
  exact .refl r _

/-- A whole number that is not negative. -/
theorem natural {q : Rat} (hq : q.den = 1) (hpos : 0 ≤ q) : Shows .atom (Rational.text q).toList (rat q) := by
  have hnum : 0 ≤ q.num := Rat.num_nonneg.2 hpos
  have hvalue : ((q.num.natAbs : Nat) : Rat) = q := by
    rw [natAbs_cast_of_nonneg hnum, Rat.coe_int_num_of_den_eq_one hq]
  have h := number q.num.natAbs
  rw [hvalue] at h
  rwa [Rational.text, if_pos hq, toString_of_nonneg hnum]

/-- The numerator of a rational, with its sign. -/
theorem integer (n : Int) : Shows .signed (toString n).toList (rat n) := by
  by_cases hn : 0 ≤ n
  · have h := number n.natAbs
    rw [natAbs_cast_of_nonneg hn] at h
    rw [toString_of_nonneg hn]
    exact h.power.signed
  · have hn : n < 0 := by omega
    rw [toString_of_neg hn, String.toList_append]
    refine (number n.natAbs).power.signed.neg.of_keepsValue fun r _ => ⟨by simp, ?_⟩
    have habs : ((n.natAbs : Nat) : Rat) = -n := by
      rw [← Int.cast_natCast, Int.ofNat_natAbs_of_nonpos hn.le, Int.cast_neg]
    simp [habs]

theorem rational (q : Rat) : Shows .term (Rational.text q).toList (rat q) := by
  rw [Rational.text]
  split
  · rename_i hq
    have h := (integer q.num).term
    rwa [Rat.coe_int_num_of_den_eq_one hq] at h
  · have h := (integer q.num).term.dividedBy (number q.den).power.signed
    rw [String.toList_append, String.toList_append]
    refine h.of_keepsValue fun r _ => ?_
    have hden : (q.den : Rat) ≠ 0 := by exact_mod_cast q.den_nz
    refine ⟨by simp [hden], ?_⟩
    simpa [div_eq_mul_inv] using Rat.num_div_den q

/-! ## Products -/

/-- Factors with stars between them. -/
theorem row {s : String} {x : Expr} (h : Shows .term s.toList x) {ss : List String} {xs : List Expr}
    (hs : List.Forall₂ (fun s x => Shows .signed s.toList x) ss xs) :
    Shows .term (String.intercalate "*" (s :: ss)).toList (mul (x :: xs)) := by
  induction hs generalizing s x with
  | nil => exact h.of_keepsValue fun r hd => by simpa using hd
  | @cons t y ss xs ht hs ih =>
    have hfirst : Shows .term (s ++ "*" ++ t).toList (mul [x, y]) := by
      rw [String.toList_append, String.toList_append]
      exact h.times ht
    rw [intercalate_cons_cons]
    refine (ih hfirst).of_keepsValue fun r hd => ?_
    simp only [defined_mul, List.forall_mem_cons, eval_mul, List.map_cons, List.prod_cons] at hd ⊢
    simpa [mul_assoc, and_assoc] using hd

end Shows

/-- The factors above and below the fraction bar show the product of a row of factors. -/
def ShowsFraction (t : FractionText) (fs : List Expr) : Prop :=
  ∃ as bs, List.Forall₂ (fun s x => Shows .power s.toList x) t.above as ∧
    List.Forall₂ (fun s x => Shows .signed s.toList x) t.below bs ∧
    ∀ r : Reading, KeepsValue r (mul fs)
      (mul (rat (if t.negative then -1 else 1) :: (as ++ bs.map fun b => pow b (rat (-1)))))

/-- Two fractions side by side. -/
def FractionText.append (t u : FractionText) : FractionText :=
  ⟨t.negative != u.negative, t.above ++ u.above, t.below ++ u.below⟩

theorem ShowsFraction.append {t u : FractionText} {fs gs : List Expr} (ht : ShowsFraction t fs)
    (hu : ShowsFraction u gs) : ShowsFraction (t.append u) (fs ++ gs) := by
  obtain ⟨as, bs, has, hbs, hv⟩ := ht
  obtain ⟨as', bs', has', hbs', hw⟩ := hu
  refine ⟨as ++ as', bs ++ bs', List.rel_append has has', List.rel_append hbs hbs', fun r => ?_⟩
  refine ((hv r).mul_append (hw r)).trans fun hd => ?_
  have hsign : (if (t.append u).negative then (-1 : Rat) else 1) =
      (if t.negative then -1 else 1) * (if u.negative then -1 else 1) := by
    rw [FractionText.append]
    cases t.negative <;> cases u.negative <;> norm_num
  rw [hsign]
  simp only [defined_mul, List.mem_append, List.mem_cons, List.mem_map] at hd ⊢
  constructor
  · rintro x (rfl | (hx | hx) | ⟨b, hb | hb, rfl⟩)
    · exact defined_rat _
    · exact hd x (.inl (.inr (.inl hx)))
    · exact hd x (.inr (.inr (.inl hx)))
    · exact hd _ (.inl (.inr (.inr ⟨b, hb, rfl⟩)))
    · exact hd _ (.inr (.inr (.inr ⟨b, hb, rfl⟩)))
  · simp only [eval_mul, List.map_append, List.map_cons, List.prod_append, List.prod_cons, eval_rat]
    ring

/-- What one factor adds to the fraction does not depend on the fraction. -/
theorem FractionText.insert_eq_append (text : Expr → String) (t : FractionText) (x : Expr) :
    t.insert text x = t.append (FractionText.insert text ⟨false, [], []⟩ x) := by
  unfold FractionText.insert
  split <;> (repeat' split) <;> simp [FractionText.append]

theorem showsFraction_nil : ShowsFraction ⟨false, [], []⟩ [] :=
  ⟨[], [], .nil, .nil, fun r _ => by simp⟩

/-- The fraction of a row of factors, given what each of them adds. -/
theorem showsFraction_foldl {text : Expr → String} {fs : List Expr}
    (h : ∀ f ∈ fs, ShowsFraction (FractionText.insert text ⟨false, [], []⟩ f) [f]) :
    ShowsFraction (fs.foldl (FractionText.insert text) ⟨false, [], []⟩) fs := by
  suffices hfold : ∀ (gs fs : List Expr) (t : FractionText), ShowsFraction t fs →
      (∀ f ∈ gs, ShowsFraction (FractionText.insert text ⟨false, [], []⟩ f) [f]) →
      ShowsFraction (gs.foldl (FractionText.insert text) t) (fs ++ gs) from
    hfold fs [] _ showsFraction_nil h
  intro gs
  induction gs with
  | nil => simp
  | cons g gs ih =>
    intro fs t ht hgs
    obtain ⟨hg, hgs⟩ := List.forall_mem_cons.1 hgs
    have hstep := ht.append hg
    rw [← FractionText.insert_eq_append] at hstep
    simpa using ih _ _ hstep hgs

/-- The factors above the bar, behind the sign. -/
theorem shows_above (negative : Bool) {ss : List String} {xs : List Expr}
    (h : List.Forall₂ (fun s x => Shows .power s.toList x) ss xs) :
    Shows .term ((if negative then "-" else "") ++
      (if ss = [] then "1" else String.intercalate "*" ss)).toList
      (mul (rat (if negative then -1 else 1) :: xs)) := by
  have hone : Shows .power "1".toList (rat 1) := (Shows.number 1).power
  have hsign {s : String} {x : Expr} (hs : Shows .power s.toList x) :
      Shows .signed ("-" ++ s).toList (mul [rat (-1), x]) := by
    rw [String.toList_append]
    exact hs.signed.neg
  cases h with
  | nil =>
    cases negative with
    | false => simpa using hone.signed.term.of_keepsValue fun r _ => by simp
    | true => simpa using (hsign hone).term.of_keepsValue fun r _ => by simp
  | @cons s x ss xs hs hss =>
    have hrest : List.Forall₂ (fun s x => Shows .signed s.toList x) ss xs := hss.imp fun _ _ h => h.signed
    cases negative with
    | false => simpa using (hs.signed.term.row hrest).of_keepsValue fun r hd => by simpa using hd
    | true =>
      have hrow := (hsign hs).term.row hrest
      rw [String.intercalate_cons_append] at hrow
      simpa using hrow.of_keepsValue fun r hd => by simpa using hd

/-- Reciprocals multiply to the reciprocal of the product. -/
theorem reciprocals_keepsValue (r : Reading) (bs : List Expr) :
    KeepsValue r (mul (bs.map fun b => pow b (rat (-1)))) (pow (mul bs) (rat (-1))) := by
  induction bs with
  | nil => exact fun _ => by simp
  | cons b bs ih =>
    intro hd
    rw [List.map_cons, defined_mul_cons, defined_reciprocal] at hd
    obtain ⟨hdef, hval⟩ := ih hd.2
    rw [defined_reciprocal] at hdef
    rw [defined_reciprocal, defined_mul_cons, eval_mul_cons]
    refine ⟨⟨⟨hd.1.1, hdef.1⟩, mul_ne_zero hd.1.2 hdef.2⟩, ?_⟩
    rw [eval_reciprocal] at hval
    rw [eval_reciprocal, List.map_cons, eval_mul_cons, eval_mul_cons, eval_reciprocal, mul_inv, hval]

/-- A fraction is its numerator times the reciprocal of its denominator. -/
theorem fraction_keepsValue (r : Reading) (as bs : List Expr) :
    KeepsValue r (mul (as ++ bs.map fun b => pow b (rat (-1)))) (mul [mul as, pow (mul bs) (rat (-1))]) := by
  intro hd
  rw [defined_mul_append] at hd
  obtain ⟨hdef, hval⟩ := reciprocals_keepsValue r bs hd.2
  refine ⟨by simpa using ⟨by simpa using hd.1, by simpa using hdef⟩, ?_⟩
  rw [eval_mul_append, ← hval]
  simp

/-- A product, given what each of its factors adds to the fraction. -/
theorem shows_productText {text : Expr → String} {fs : List Expr}
    (h : ∀ f ∈ fs, ShowsFraction (FractionText.insert text ⟨false, [], []⟩ f) [f]) :
    Shows .term (productText text fs).toList (mul fs) := by
  obtain ⟨as, bs, has, hbs, hv⟩ := showsFraction_foldl h
  simp only [productText]
  generalize fs.foldl (FractionText.insert text) ⟨false, [], []⟩ = t at has hbs hv ⊢
  obtain ⟨negative, above, below⟩ := t
  have habove := shows_above negative has
  refine Shows.of_keepsValue ?_ fun r => (hv r).trans (fraction_keepsValue r (_ :: as) bs)
  dsimp only at habove hbs ⊢
  generalize (if negative then "-" else "") ++ (if above = [] then "1" else String.intercalate "*" above) =
    top at habove ⊢
  cases hbs with
  | nil =>
    rw [String.append_empty]
    exact habove.of_keepsValue fun r hd => by simpa using hd
  | @cons s x ss xs hs hss =>
    cases hss with
    | nil =>
      have hover := habove.dividedBy hs
      rw [String.toList_append, String.toList_append]
      simpa using hover.of_keepsValue fun r hd => by simpa using hd
    | @cons t y ss xs ht hss =>
      have hover := habove.dividedBy (hs.term.row (.cons ht hss)).sum.paren.power.signed
      rw [String.toList_append, String.toList_append, inParens, String.toList_append,
        String.toList_append]
      simpa using hover

/-! ## Powers -/

/-- A power with a negative exponent is the reciprocal of one with a positive exponent. -/
theorem negativePower_keepsValue (r : Reading) (b : Expr) {q : Rat} (hq : q < 0) :
    KeepsValue r (pow b (rat q)) (pow (pow b (rat (-q))) (rat (-1))) := by
  intro hd
  rw [defined_pow] at hd
  obtain ⟨hb, hden, hpos⟩ := hd
  have hne : eval r b ≠ 0 := hpos.resolve_left (not_le.2 hq)
  rw [defined_reciprocal, defined_pow, eval_reciprocal, eval_pow, eval_pow, Rat.neg_num, Rat.neg_den]
  refine ⟨⟨⟨hb, hden, .inr hne⟩, zpow_ne_zero _ hne⟩, ?_⟩
  rw [zpow_neg, inv_inv]

section Powers

variable {text : Expr → String} (hrat : ∀ q, text (rat q) = Rational.text q) {b : Expr}
  (hb : Shows .atom (operandText text b).toList b) (hne : b ≠ e) {q : Rat} (hq : q.den = 1)
include hrat hb hne hq

/-- A power with a whole exponent that is not negative. -/
theorem shows_plainPower (hpos : 0 ≤ q) : Shows .power (plainPowerText text b (rat q)).toList (pow b (rat q)) := by
  have hhalf : rat q ≠ half := by
    intro h
    have hden := congrArg Rat.den (Expr.rat.inj h)
    rw [hq] at hden
    exact absurd hden (by decide)
  have halone : (rat q).standsAlone = true := by
    simp [standsAlone, Rational.isInt, hq, hpos]
  have hnum : 0 ≤ q.num := Rat.num_nonneg.2 hpos
  have hvalue : ((q.num.natAbs : Nat) : Rat) = q := by
    rw [natAbs_cast_of_nonneg hnum, Rat.coe_int_num_of_den_eq_one hq]
  have hexponent : operandText text (rat q) = toString q.num.natAbs := by
    rw [operandText, if_pos halone, hrat, Rational.text, if_pos hq, toString_of_nonneg hnum]
  have h := hb.raise q.num.natAbs
  rw [hvalue] at h
  rw [plainPowerText, if_neg hhalf, if_neg hne, hexponent, String.toList_append, String.toList_append]
  exact h

/-- A power with a whole exponent. -/
theorem shows_powerText : Shows .term (powerText text b (rat q)).toList (pow b (rat q)) := by
  have hone : Shows .term "1".toList (rat 1) := (Shows.number 1).power.signed.term
  rw [powerText]
  split
  · rename_i hminus
    rw [hminus, String.toList_append]
    exact (hone.dividedBy hb.power.signed).of_keepsValue fun r hd => by simpa using hd
  · split
    · rename_i hneg
      have hden : (-q).den = 1 := by rw [Rat.neg_den, hq]
      have h := shows_plainPower hrat hb hne hden (by linarith)
      rw [String.toList_append]
      refine (hone.dividedBy h.signed).of_keepsValue fun r => ?_
      refine (negativePower_keepsValue r b hneg).trans fun hd => ?_
      simpa using hd
    · rename_i hneg
      exact (shows_plainPower hrat hb hne hq (by linarith)).signed.term

end Powers

/-! ## Expressions in their places -/

/-- What the text of an expression shows in the places where it may stand. -/
structure Printed (text : Expr → String) (x : Expr) : Prop where
  sum : Shows .sum (text x).toList x
  term : x.isSum = false → Shows .term (text x).toList x
  integer : x.isInteger = true → Shows .signed (text x).toList x
  power : ∀ b q, x = pow b (rat q) → 0 ≤ q → Shows .power (text x).toList x
  alone : x.standsAlone = true → Shows .atom (text x).toList x

variable {text : Expr → String}

theorem Printed.operand {x : Expr} (h : Printed text x) : Shows .atom (operandText text x).toList x := by
  rw [operandText]
  split
  · rename_i halone
    exact h.alone halone
  · rw [inParens, String.toList_append, String.toList_append]
    exact h.sum.paren

/-- A sum or a variable as a factor. -/
theorem Printed.factor {x : Expr} (h : Printed text x) (hx : x.isSum = true ∨ x.standsAlone = true) :
    Shows .atom (factorText text x).toList x := by
  unfold factorText
  split
  · rw [inParens, String.toList_append, String.toList_append]
    exact h.sum.paren
  · rename_i hnot
    refine h.alone (hx.resolve_left fun hsum => ?_)
    cases x with
    | add ts => exact hnot ts rfl
    | _ => cases hsum

theorem ShowsFraction.above {s : String} {x : Expr} (h : Shows .power s.toList x) :
    ShowsFraction ⟨false, [s], []⟩ [x] :=
  ⟨[x], [], .cons h .nil, .nil, fun r hd => by simpa using hd⟩

theorem ShowsFraction.below {s : String} {x y : Expr} (h : Shows .signed s.toList y)
    (hxy : ∀ r : Reading, KeepsValue r x (pow y (rat (-1)))) : ShowsFraction ⟨false, [], [s]⟩ [x] := by
  refine ⟨[], [y], .nil, .cons h .nil, fun r => ?_⟩
  refine (KeepsValue.mul_cons (hxy r) (.refl r _)).trans fun hd => ?_
  simpa using hd

theorem ShowsFraction.of_keepsValue {t : FractionText} {fs gs : List Expr} (h : ShowsFraction t gs)
    (hfg : ∀ r : Reading, KeepsValue r (mul fs) (mul gs)) : ShowsFraction t fs := by
  obtain ⟨as, bs, has, hbs, hv⟩ := h
  exact ⟨as, bs, has, hbs, fun r => (hfg r).trans (hv r)⟩

theorem num_eq_sign_mul (q : Rat) :
    (q.num : Rat) = (if q < 0 then -1 else 1) * ((q.num.natAbs : Nat) : Rat) := by
  split
  · rename_i hneg
    have hnum : q.num ≤ 0 := (Rat.num_neg.2 hneg).le
    rw [← Int.cast_natCast, Int.ofNat_natAbs_of_nonpos hnum]
    simp
  · rename_i hpos
    rw [natAbs_cast_of_nonneg (Rat.num_nonneg.2 (not_lt.1 hpos)), one_mul]

/-- A coefficient gives its sign, its numerator and its denominator. -/
theorem showsFraction_rat (q : Rat) :
    ShowsFraction (FractionText.insert text ⟨false, [], []⟩ (rat q)) [rat q] := by
  have hnum : ShowsFraction ⟨decide (q < 0),
      if q.num.natAbs = 1 then [] else [toString q.num.natAbs], []⟩ [rat q.num] := by
    have hsign := num_eq_sign_mul q
    split
    · rename_i hone
      rw [hone, Nat.cast_one, mul_one] at hsign
      exact ⟨[], [], .nil, .nil, fun r _ => by simp [hsign]⟩
    · exact ⟨[rat (q.num.natAbs : Nat)], [], .cons (Shows.number _).power .nil, .nil, fun r _ =>
        ⟨by simp, by simpa using hsign.symm⟩⟩
  have hden : ShowsFraction ⟨false, [], if q.den = 1 then [] else [toString q.den]⟩
      [pow (rat q.den) (rat (-1))] := by
    split
    · rename_i hone
      exact ⟨[], [], .nil, .nil, fun r _ => by simp [hone]⟩
    · exact .below (Shows.number q.den).power.signed fun r => .refl r _
  have hvalue (r : Reading) : KeepsValue r (mul [rat q]) (mul ([rat q.num] ++ [pow (rat q.den) (rat (-1))])) := by
    have hne : (q.den : Rat) ≠ 0 := by exact_mod_cast q.den_nz
    intro _
    refine ⟨by simp [hne], ?_⟩
    simpa [div_eq_mul_inv] using Rat.num_div_den q
  have h := (hnum.append hden).of_keepsValue hvalue
  simpa [FractionText.insert, FractionText.append] using h

/-- What a factor of a product adds to the fraction. -/
theorem showsFraction_factor (hrat : ∀ q, text (rat q) = Rational.text q) {f : Expr}
    (hleg : Legible f) (hp : f.isProduct = false) (hf : Printed text f)
    (hbase : ∀ b q, f = pow b (rat q) → Printed text b ∧ b ≠ e)
    (hreciprocal : ∀ b, f = pow b (rat (-1)) → Shows .signed (factorText text b).toList b) :
    ShowsFraction (FractionText.insert text ⟨false, [], []⟩ f) [f] := by
  cases f with
  | rat q => exact showsFraction_rat q
  | var s => exact .above (hf.factor (.inr rfl)).power
  | add ts => exact .above (hf.factor (.inl rfl)).power
  | pow b x =>
    cases x with
    | rat q =>
      obtain ⟨hb, hne⟩ := hbase b q rfl
      rw [FractionText.insert]
      split
      · rename_i hq
        subst hq
        exact .below (hreciprocal b rfl) fun r => .refl r _
      · split
        · rename_i hneg
          have hden : (-q).den = 1 := by rw [Rat.neg_den, hleg.2]
          have hplain := shows_plainPower hrat hb.operand hne hden (by linarith)
          exact .below hplain.signed fun r => negativePower_keepsValue r b hneg
        · rename_i hpos
          exact .above (hf.power b q rfl (not_lt.1 hpos))
    | _ => exact hleg.elim
  | mul => cases hp
  | _ => exact hleg.elim

/-! ## Sums -/

/-- What a term of a sum is printed as: the term itself, or its negative after a minus sign. -/
structure PrintedTerm (text : Expr → String) (t : Expr) : Prop where
  plain : Shows .term (text t).toList t
  negated : t.hasMinus = true → Shows .term (text (-t)).toList (-t)

theorem PrintedTerm.later {t : Expr} (ht : PrintedTerm text t) {s : String} {x : Expr}
    (h : Shows .sum s.toList x) : Shows .sum (s ++ laterTermText text t).toList (add [x, t]) := by
  rw [laterTermText]
  split
  · rename_i hminus
    have hsub := h.minus (ht.negated hminus)
    have hback (r : Reading) : KeepsValue r t (mul [rat (-1), -t]) := by
      intro hd
      obtain ⟨hneg, hvalue⟩ := product_keepsValue r [rat (-1), t] (by simpa using hd)
      have hneg : Defined r (-t) := hneg
      have hvalue : eval r (-t) = eval r (mul [rat (-1), t]) := hvalue
      exact ⟨by simpa using hneg, by simp [hvalue]⟩
    rw [String.toList_append, String.toList_append]
    have hkept (r : Reading) : KeepsValue r (add [x, t]) (add [x, mul [rat (-1), -t]]) :=
      .add_cons (.refl r x) (.add_cons (hback r) (.refl r _))
    simpa using hsub.of_keepsValue hkept
  · rw [String.toList_append, String.toList_append]
    simpa using h.plus ht.plain

/-- The terms after the first, one by one. -/
theorem shows_laterTerms {ts : List Expr} (hts : ∀ t ∈ ts, PrintedTerm text t) {s : String} {x : Expr}
    (h : Shows .sum s.toList x) :
    Shows .sum (s ++ String.join (ts.map (laterTermText text))).toList (add (x :: ts)) := by
  induction ts generalizing s x with
  | nil => simpa using h.of_keepsValue fun r hd => by simpa using hd
  | cons t ts ih =>
    obtain ⟨ht, hts⟩ := List.forall_mem_cons.1 hts
    have hstep := ih hts (ht.later h)
    rw [List.map_cons, String.join_cons, ← String.append_assoc]
    refine hstep.of_keepsValue fun r hd => ?_
    simp only [defined_add, List.forall_mem_cons, eval_add, List.map_cons, List.sum_cons] at hd ⊢
    simpa [add_assoc, and_assoc] using hd

theorem shows_sumText {ts : List Expr} (hne : ts ≠ []) (hts : ∀ t ∈ ts, PrintedTerm text t) :
    Shows .sum (sumText text ts).toList (add ts) := by
  have hperm := termOrder_perm ts
  rw [sumText]
  split
  · rename_i hnil
    rw [hnil] at hperm
    exact absurd hperm.nil_eq.symm hne
  · rename_i t rest horder
    rw [horder] at hperm
    have hmem : ∀ u ∈ t :: rest, PrintedTerm text u := fun u hu => hts u (hperm.mem_iff.1 hu)
    obtain ⟨ht, hrest⟩ := List.forall_mem_cons.1 hmem
    exact (shows_laterTerms hrest ht.plain.sum).of_keepsValue fun r => .add_perm hperm.symm

/-! ## Negatives -/

/-- Taking the negative of a term changes its coefficient only. -/
theorem neg_times {fs : List Expr} (h : Monomial fs) {c : Rat} (hc : c ≠ 0) :
    -times c fs = times (-c) fs := by
  obtain ⟨cs, hflat, hprod⟩ := flattenFactors_times (-1) c h
  obtain ⟨k, hk⟩ := roundsFor_eq (sizeAll [rat (-1), times c fs])
  have hneg : cs.prod = -c := by rw [hprod, neg_one_mul]
  have hrow := productWithin_row (k + 2) hflat h.canonical h.row (by simpa [hneg] using hc) (.inr h.notLone)
  rw [hneg] at hrow
  exact (congrArg (productWithin · [rat (-1), times c fs]) hk).trans hrow

theorem size_pos (x : Expr) : 0 < x.size := by
  cases x <;> simp [size]

theorem size_times_le {c : Rat} (hc : c ≠ 1) (d : Rat) (fs : List Expr) :
    (times d fs).size ≤ (times c fs).size := by
  by_cases hne : fs = []
  · simp [hne, size]
  · rw [times_of_ne_one hc hne]
    by_cases hd : d = 1
    · subst hd
      obtain ⟨f, gs, rfl⟩ := List.exists_cons_of_ne_nil hne
      cases gs with
      | nil =>
        simp [size, sizeAll]
        omega
      | cons g gs => simp [size, sizeAll]
    · rw [times_of_ne_one hd hne]
      simp [size, sizeAll]

theorem legible_times {c : Rat} (hc : c ≠ 1) {fs : List Expr} (h : Legible (times c fs)) (d : Rat) :
    Legible (times d fs) := by
  by_cases hne : fs = []
  · rw [hne, times_nil]
    trivial
  · rw [times_of_ne_one hc hne, legible_mul, List.forall_mem_cons] at h
    have hfactors : (∀ f ∈ fs, Legible f) ∧ ∀ q, pow (rat q) (rat (-1)) ∈ fs → q.den = 1 :=
      ⟨h.1.2, fun q hq => h.2 q (List.mem_cons_of_mem _ hq)⟩
    by_cases hd : d = 1
    · subst hd
      match fs with
      | [] => exact absurd rfl hne
      | [f] =>
        rw [times_one_singleton]
        exact hfactors.1 f List.mem_cons_self
      | f :: g :: fs =>
        rw [times_one_cons_cons, legible_mul]
        exact hfactors
    · rw [times_of_ne_one hd hne, legible_mul, List.forall_mem_cons]
      exact ⟨⟨trivial, hfactors.1⟩, fun q hq => hfactors.2 q (by simpa using hq)⟩

/-- The negative of a term with a minus sign is a term as well, and no larger. -/
theorem negative_of_term {t : Expr} (ht : Canonical t) (hs : t.isSum = false) (hleg : Legible t)
    (hminus : t.hasMinus = true) :
    Canonical (-t) ∧ (-t).isSum = false ∧ Legible (-t) ∧ (-t).size ≤ t.size := by
  obtain ⟨c, fs, rfl, hfs, -⟩ := ht.monomial hs
  rw [hasMinus, hfs.splitCoeff_times, decide_eq_true_eq] at hminus
  have hc0 : c ≠ 0 := hminus.ne
  have hc1 : c ≠ 1 := by linarith
  rw [neg_times hfs hc0]
  exact ⟨hfs.canonical_times (neg_ne_zero.2 hc0), times_notSum hfs _, legible_times hc1 hleg _,
    size_times_le hc1 _ fs⟩

/-! ## All levels -/

theorem Canonical.base {b x : Expr} (h : Canonical (pow b x)) : Canonical b ∧ PowerBase b := by
  cases h with
  | power hb hbase => exact ⟨hb, hbase⟩

theorem powerText_of_nonneg (b : Expr) {q : Rat} (hq : 0 ≤ q) :
    powerText text b (rat q) = plainPowerText text b (rat q) := by
  rw [powerText, if_neg (by linarith), if_neg (not_lt.2 hq)]

/-- The base of a reciprocal below the fraction bar. -/
theorem Printed.reciprocal {b : Expr} (h : Printed text b) (hleg : Legible b) (hbase : PowerBase b)
    (hrat : ∀ q, b = rat q → q.den = 1) : Shows .signed (factorText text b).toList b := by
  cases b with
  | rat q => exact h.integer (by simpa [isInteger, Rational.isInt] using hrat q rfl)
  | var s => exact (h.factor (.inr rfl)).power.signed
  | add ts => exact (h.factor (.inl rfl)).power.signed
  | mul fs => exact absurd hbase.notProduct (by simp [isProduct])
  | pow c x => exact absurd rfl (hbase.notPower c x)
  | _ => exact hleg.elim

/-- An expression that shows itself behind a sign or alone shows itself everywhere. -/
theorem Printed.of_atom {x : Expr} (h : Shows .atom (text x).toList x) (hx : ∀ b y, x ≠ pow b y) :
    Printed text x :=
  ⟨h.power.signed.term.sum, fun _ => h.power.signed.term, fun _ => h.power.signed,
    fun b _ heq => absurd heq (hx b _), fun _ => h⟩

theorem Printed.of_add {ts : List Expr} (h : Shows .sum (text (add ts)).toList (add ts)) :
    Printed text (add ts) :=
  ⟨h, by simp [isSum], by simp [isInteger], by simp, by simp [standsAlone]⟩

theorem Printed.of_mul {fs : List Expr} (h : Shows .term (text (mul fs)).toList (mul fs)) :
    Printed text (mul fs) :=
  ⟨h.sum, fun _ => h, by simp [isInteger], by simp, by simp [standsAlone]⟩

theorem Printed.of_pow {b : Expr} {q : Rat} (h : Shows .term (text (pow b (rat q))).toList (pow b (rat q)))
    (hpos : 0 ≤ q → Shows .power (text (pow b (rat q))).toList (pow b (rat q))) :
    Printed text (pow b (rat q)) := by
  refine ⟨h.sum, fun _ => h, by simp [isInteger], fun c p heq hp => ?_, by simp [standsAlone]⟩
  obtain ⟨-, hq⟩ := Expr.pow.inj heq
  exact hpos (Expr.rat.inj hq ▸ hp)

theorem textWithin_rat (n : Nat) (q : Rat) : textWithin (n + 1) (rat q) = Rational.text q := rfl

theorem printed_rat (n : Nat) (q : Rat) : Printed (textWithin (n + 1)) (rat q) := by
  refine ⟨(Shows.rational q).sum, fun _ => .rational q, fun hint => ?_, by simp, fun halone => ?_⟩
  · have hden : q.den = 1 := by simpa [isInteger, Rational.isInt] using hint
    have h := Shows.integer q.num
    rw [Rat.coe_int_num_of_den_eq_one hden] at h
    rwa [textWithin_rat, Rational.text, if_pos hden]
  · have hq : q.den = 1 ∧ 0 ≤ q := by simpa [standsAlone, Rational.isInt] using halone
    exact .natural hq.1 hq.2

theorem size_le_sizeAll {x : Expr} {xs : List Expr} (h : x ∈ xs) : x.size ≤ sizeAll xs := by
  induction xs with
  | nil => simp at h
  | cons y xs ih =>
    rw [sizeAll]
    rcases List.mem_cons.1 h with rfl | h
    · omega
    · have := ih h
      omega

/-- Every legible canonical expression is printed as what it is. -/
theorem printed_textWithin (n : Nat) : ∀ x : Expr, Canonical x → Legible x → x.size ≤ n →
    Printed (textWithin n) x := by
  induction n with
  | zero => exact fun x _ _ hsize => absurd hsize (Nat.not_le.2 (size_pos x))
  | succ n ih =>
    intro x hx hleg hsize
    have hproduct {fs : List Expr} (hmul : Canonical (mul fs)) (hleg : Legible (mul fs))
        (hsize : (mul fs).size ≤ n + 1) (hfs : ∀ f ∈ fs, Canonical f ∧ f.isProduct = false) :
        Printed (textWithin (n + 1)) (mul fs) := by
      obtain ⟨hlegs, hreciprocal⟩ := (legible_mul fs).1 hleg
      refine .of_mul (shows_productText fun f hf => ?_)
      have hsizef : f.size ≤ n := by
        have := size_le_sizeAll hf
        rw [size] at hsize
        omega
      obtain ⟨hcanon, hnot⟩ := hfs f hf
      have hlegf := hlegs f hf
      obtain ⟨m, rfl⟩ : ∃ m, n = m + 1 := ⟨n - 1, by have := size_pos f; omega⟩
      have hbase : ∀ b q, f = pow b (rat q) → Canonical b ∧ PowerBase b ∧ Printed (textWithin (m + 1)) b := by
        rintro b q rfl
        obtain ⟨hb, hpower⟩ := hcanon.base
        refine ⟨hb, hpower, ih b hb hlegf.1 ?_⟩
        rw [size] at hsizef
        omega
      refine showsFraction_factor (textWithin_rat m) hlegf hnot (ih f hcanon hlegf hsizef) (fun b q heq => ?_)
        fun b heq => ?_
      · refine ⟨(hbase b q heq).2.2, ?_⟩
        rintro rfl
        subst heq
        exact hlegf.1.elim
      · obtain ⟨-, hpower, hprinted⟩ := hbase b _ heq
        subst heq
        refine hprinted.reciprocal hlegf.1 hpower fun q hq => hreciprocal q ?_
        exact hq ▸ hf
    cases hx with
    | rat q => exact printed_rat n q
    | var s => exact .of_atom (.var hleg) (by simp)
    | pi | e | call => exact hleg.elim
    | @power b k hb hbase h0 h1 hlarge =>
      obtain ⟨hlegb, hden⟩ := hleg
      obtain ⟨m, rfl⟩ : ∃ m, n = m + 1 := ⟨n - 1, by have := size_pos b; rw [size] at hsize; omega⟩
      have hprinted : Printed (textWithin (m + 1)) b := by
        refine ih b hb hlegb ?_
        rw [size] at hsize
        omega
      have hne : b ≠ e := by
        rintro rfl
        exact hlegb.elim
      refine .of_pow (shows_powerText (textWithin_rat m) hprinted.operand hne hden) fun hpos => ?_
      have hplain := shows_plainPower (textWithin_rat m) hprinted.operand hne hden hpos
      rw [← powerText_of_nonneg b hpos] at hplain
      exact hplain
    | @product fs hfs hrow hlen =>
      exact hproduct (.product hfs hrow hlen) hleg hsize fun f hf => ⟨hfs f hf, hrow.notProduct f hf⟩
    | @scaled c fs hfs hrow hc0 hc1 hne hlone =>
      refine hproduct (.scaled hfs hrow hc0 hc1 hne hlone) hleg hsize ?_
      exact List.forall_mem_cons.2 ⟨⟨.rat c, rfl⟩, fun f hf => ⟨hfs f hf, hrow.notProduct f hf⟩⟩
    | @sum ts hts hrow hlen =>
      have hterms : ∀ t ∈ ts, PrintedTerm (textWithin n) t := by
        intro t ht
        have hlegt := (legible_add ts).1 hleg t ht
        have hsizet : t.size ≤ n := by
          have := size_le_sizeAll ht
          rw [size] at hsize
          omega
        refine ⟨(ih t (hts t ht) hlegt hsizet).term (hrow.notSum t ht), fun hminus => ?_⟩
        obtain ⟨hcanon, hnot, hlegn, hle⟩ := negative_of_term (hts t ht) (hrow.notSum t ht) hlegt hminus
        exact (ih (-t) hcanon hlegn (by omega)).term hnot
      have hne : ts ≠ [] := by
        rintro rfl
        simp at hlen
      exact .of_add (shows_sumText hne hterms)

/-! ## Reading back -/

mutual

/-- Building a legible expression anew takes sums, products and whole powers of rationals and variables. -/
theorem Legible.built : ∀ x : Expr, Legible x → Built x.rebuild
  | rat q, _ => .rat q
  | var s, _ => .var s
  | add ts, h => by
    rw [rebuild_add]
    exact .sum (AllLegible.built ts h)
  | mul fs, h => by
    rw [rebuild_mul]
    exact .product (AllLegible.built fs h.1)
  | pow b (rat n), h => by
    have hint : rat n = rat (n.num : Rat) := by rw [Rat.coe_int_num_of_den_eq_one h.2]
    rw [rebuild_pow, rebuild_rat, hint]
    exact .power (Legible.built b h.1) n.num
  | pow _ pi, h | pow _ e, h | pow _ i, h | pow _ infinity, h | pow _ undefined, h | pow _ (var _), h
  | pow _ (add _), h | pow _ (mul _), h | pow _ (pow _ _), h | pow _ (fn _ _), h => h.elim
  | pi, h | e, h | i, h | infinity, h | undefined, h | fn _ _, h => h.elim

theorem AllLegible.built : ∀ xs : List Expr, AllLegible xs → ∀ y ∈ xs.map rebuild, Built y
  | [], _ => by simp
  | x :: xs, h => by
    rw [List.map_cons, List.forall_mem_cons]
    exact ⟨Legible.built x h.1, AllLegible.built xs h.2⟩

end

/-- A stable rational expression is canonical. -/
theorem Legible.canonical {x : Expr} (h : Legible x) (hstable : x.rebuild = x) : Canonical x := by
  have hbuilt := Legible.built x h
  rw [hstable] at hbuilt
  refine hbuilt.canonical.resolve_left ?_
  rintro rfl
  exact h

/-- The text of a stable rational expression is read back to an expression with the same value wherever the first one
has a value, unless too much is pending on the way. -/
theorem text_keeps_value {x : Expr} (h : Legible x) (hstable : x.rebuild = x) :
    Expr.read x.text = .error (.tooDeep maxPending) ∨
      ∃ y, Expr.read x.text = .ok y ∧
        ∀ ρ, DefinedAt ρ x → DefinedAt ρ y ∧ valueAt ρ y = valueAt ρ x := by
  have hprinted := printed_textWithin (2 * x.size + 8) x (h.canonical hstable) h (by omega)
  rcases hprinted.sum.read with hdeep | ⟨y, hread, hkept⟩
  · exact .inl hdeep
  · exact .inr ⟨y, hread, fun ρ => hkept (.ofVars ρ)⟩

/-- The quotient `x/y` is legible and stable. -/
theorem text_keeps_value_quotient :
    (mul [var "x", pow (var "y") (rat (-1))]).text = "x/y" ∧
      (Expr.read (mul [var "x", pow (var "y") (rat (-1))]).text = .error (.tooDeep maxPending) ∨
        ∃ z, Expr.read (mul [var "x", pow (var "y") (rat (-1))]).text = .ok z ∧
          ∀ ρ, DefinedAt ρ (mul [var "x", pow (var "y") (rat (-1))]) →
            DefinedAt ρ z ∧ valueAt ρ z = valueAt ρ (mul [var "x", pow (var "y") (rat (-1))])) := by
  have hx : IsVariable "x" := ⟨⟨'x', [], by decide, by decide, by simp⟩, by decide, by decide⟩
  have hy : IsVariable "y" := ⟨⟨'y', [], by decide, by decide, by simp⟩, by decide, by decide⟩
  have hlegible : Legible (mul [var "x", pow (var "y") (rat (-1))]) := by
    rw [legible_mul]
    refine ⟨?_, by simp⟩
    simpa using ⟨hx, hy, by decide⟩
  exact ⟨by decide, text_keeps_value hlegible (by cbv)⟩

/-- The sum that `w + -1/y^2*(x+1)*sqrt(y^2)*sqrt(y^2)` is read to, in which `y` and its square are not merged. -/
def unmergedSum : Expr :=
  add [var "w", mul [rat (-1), pow (var "y") (rat (-2)), pow (var "y") (rat 2), add [var "x", rat 1]]]

theorem read_unmergedSum :
    Expr.read "w + -1/y^2*(x+1)*sqrt(y^2)*sqrt(y^2)" = .ok unmergedSum := by
  have htokens : tokenize "w + -1/y^2*(x+1)*sqrt(y^2)*sqrt(y^2)" = .ok [.name "w", .plus, .minus,
      .number 1, .divide, .name "y", .caret, .number 2, .times, .leftParen, .name "x", .plus, .number 1,
      .rightParen, .times, .name "sqrt", .leftParen, .name "y", .caret, .number 2, .rightParen, .times,
      .name "sqrt", .leftParen, .name "y", .caret, .number 2, .rightParen] := by
    decide +kernel
  have hparsed : ofInfix [.name "w", .plus, .minus, .number 1, .divide, .name "y", .caret, .number 2,
      .times, .leftParen, .name "x", .plus, .number 1, .rightParen, .times, .name "sqrt", .leftParen,
      .name "y", .caret, .number 2, .rightParen, .times, .name "sqrt", .leftParen, .name "y", .caret,
      .number 2, .rightParen] = .ok [.name "w", .number 1, .negate, .name "y", .number 2, .caret, .divide,
      .name "x", .number 1, .plus, .times, .name "y", .number 2, .caret, .name "sqrt", .times, .name "y",
      .number 2, .caret, .name "sqrt", .times, .plus] := by
    decide
  have hroot : sqrt (Expr.power (var "y") (rat 2)) = pow (pow (var "y") (rat 2)) half := by decide
  have hquotient : product [product [rat (-1), rat 1], (Expr.power (var "y") (rat 2)).inverse] =
      mul [rat (-1), pow (var "y") (rat (-2))] := by
    cbv
  have hsum : Expr.sum [var "x", rat 1] = add [var "x", rat 1] := by cbv
  have hspread : product [mul [rat (-1), pow (var "y") (rat (-2))], add [var "x", rat 1]] =
      mul [rat (-1), pow (var "y") (rat (-2)), add [var "x", rat 1]] := by
    cbv
  have hfirst : product [mul [rat (-1), pow (var "y") (rat (-2)), add [var "x", rat 1]],
      pow (pow (var "y") (rat 2)) half] = mul [rat (-1), pow (var "y") (rat (-2)),
      pow (pow (var "y") (rat 2)) half, add [var "x", rat 1]] := by
    cbv
  have hsecond : product [mul [rat (-1), pow (var "y") (rat (-2)), pow (pow (var "y") (rat 2)) half,
      add [var "x", rat 1]], pow (pow (var "y") (rat 2)) half] = mul [rat (-1), pow (var "y") (rat (-2)),
      pow (var "y") (rat 2), add [var "x", rat 1]] := by
    cbv
  have hwhole : Expr.sum [var "w", mul [rat (-1), pow (var "y") (rat (-2)), pow (var "y") (rat 2),
      add [var "x", rat 1]]] = unmergedSum := by
    cbv
  have hvalue : Expr.sum [var "w", product [product [product [product [product [rat (-1), rat 1],
      (Expr.power (var "y") (rat 2)).inverse], Expr.sum [var "x", rat 1]],
      sqrt (Expr.power (var "y") (rat 2))], sqrt (Expr.power (var "y") (rat 2))]] = unmergedSum := by
    rw [hquotient, hsum, hspread, hroot, hfirst, hsecond, hwhole]
  exact read_eq htokens hparsed (congrArg Except.ok hvalue)

/-- Behind the minus sign stands the sum that is the negative of the second term. -/
theorem text_unmergedSum : unmergedSum.text = "w - x + 1" := by
  have hneg : -mul [rat (-1), pow (var "y") (rat (-2)), pow (var "y") (rat 2), add [var "x", rat 1]] =
      add [var "x", rat 1] := by
    cbv
  have hsum : unmergedSum.text = "w" ++ String.join [" - " ++ textWithin 33
      (-mul [rat (-1), pow (var "y") (rat (-2)), pow (var "y") (rat 2), add [var "x", rat 1]])] := rfl
  rw [hsum, hneg]
  decide

theorem read_misreadSum :
    Expr.read "w - x + 1" = .ok (add [var "w", mul [rat (-1), var "x"], rat 1]) := by
  have htokens : tokenize "w - x + 1" = .ok [.name "w", .minus, .name "x", .plus, .number 1] := by
    decide +kernel
  have hparsed : ofInfix [.name "w", .minus, .name "x", .plus, .number 1] =
      .ok [.name "w", .name "x", .minus, .number 1, .plus] := by
    decide
  have hvalue : Expr.sum [Expr.sum [var "w", product [rat (-1), var "x"]], rat 1] =
      add [var "w", mul [rat (-1), var "x"], rat 1] := by
    cbv
  exact read_eq htokens hparsed (congrArg Except.ok hvalue)

/-- The negative of its second term is the sum `x + 1`, which is printed after the minus sign without parentheses. -/
theorem unmergedSum_misread :
    Expr.read "w + -1/y^2*(x+1)*sqrt(y^2)*sqrt(y^2)" = .ok unmergedSum ∧ Legible unmergedSum ∧
      unmergedSum.text = "w - x + 1" ∧
      ∃ z, Expr.read "w - x + 1" = .ok z ∧ ∃ ρ, DefinedAt ρ unmergedSum ∧
        valueAt ρ unmergedSum = -1 ∧ valueAt ρ z = 1 := by
  have hletter {c : Char} (h : startsName c = true) (hf : isFunctionName (String.ofList [c]) = false)
      (hc : String.ofList [c] ∉ ["pi", "E", "I", "oo"]) : IsVariable (String.ofList [c]) :=
    ⟨⟨c, [], String.toList_ofList, h, by simp⟩, hf, hc⟩
  have hlegible : Legible unmergedSum := by
    have hw : IsVariable "w" := hletter (c := 'w') (by decide) (by decide) (by decide)
    have hx : IsVariable "x" := hletter (c := 'x') (by decide) (by decide) (by decide)
    have hy : IsVariable "y" := hletter (c := 'y') (by decide) (by decide) (by decide)
    refine ⟨hw, ⟨⟨trivial, ⟨hy, by decide⟩, ⟨hy, by decide⟩, ⟨hx, trivial, trivial⟩, trivial⟩, ?_⟩,
      trivial⟩
    simp
  refine ⟨read_unmergedSum, hlegible, text_unmergedSum, _, read_misreadSum, fun s => if s = "y" then 1 else 0,
    ?_, ?_, ?_⟩
  · simp [DefinedAt, unmergedSum, Reading.ofVars]
  · simp [valueAt, unmergedSum, Reading.ofVars]
  · simp [valueAt, Reading.ofVars]

end Expr

end SymbolicSolver
