import Mathlib
import SymbolicSolver.Equation.Basic
import SymbolicSolver.Proofs.Polynomial.RationalFunction
import SymbolicSolver.Proofs.Polynomial.Terms

/-!
# Identities between rational functions

The simplifier has no test for zero. It takes the form with the fewest visible operations, and a rational expression
in one variable that vanishes wherever it is defined always has the form zero: if its common denominator is one,
everything cancels in the expansion, and otherwise the numerator is the zero polynomial and so is the reduced fraction.
No other form without visible operations vanishes at infinitely many points. So the simplifier decides whether such an
expression is zero, and the first tier whether an equation is an identity.

Two things stand in the way. An expression that is defined nowhere has the undefined value among its forms, and beyond
a limit on the number of terms the expansion is not complete.
-/

namespace SymbolicSolver.Expr

variable {v : String} {x y : Expr}

/-! ## Forms without visible operations -/

theorem fewestOps_le (best : Expr) (xs : List Expr) : ∀ z ∈ best :: xs, (fewestOps best xs).opCount ≤ z.opCount := by
  unfold fewestOps
  induction xs generalizing best with
  | nil => simp
  | cons w xs ih =>
    rw [List.foldl_cons]
    split
    · rename_i hlt
      have hrest := ih w
      simp only [List.forall_mem_cons] at hrest ⊢
      exact ⟨hrest.1.trans hlt.le, hrest⟩
    · rename_i hle
      have hrest := ih best
      simp only [List.forall_mem_cons] at hrest ⊢
      exact ⟨hrest.1, hrest.1.trans (not_lt.1 hle), hrest.2⟩

theorem fewestOps_eq_self {best : Expr} (h : best.opCount = 0) (xs : List Expr) : fewestOps best xs = best := by
  unfold fewestOps
  induction xs with
  | nil => rfl
  | cons w xs ih => rwa [List.foldl_cons, if_neg (by omega)]

/-- A sum or product at the root has at least two operands. -/
def Branching (x : Expr) : Prop := ∀ xs, x = add xs ∨ x = mul xs → 2 ≤ xs.length

theorem Canonical.branching (hx : Canonical x) : Branching x := by
  rintro xs (rfl | rfl)
  · cases hx with
    | sum hts hrow hlen => exact hlen
  · cases hx with
    | product hfs hrow hlen => exact hlen
    | scaled hfs hrow hc0 hc1 hne hlone =>
      have hpos := List.length_pos_iff.2 hne
      rw [List.length_cons]
      omega

/-- An expression with a value and without visible operations is a rational or a variable. -/
theorem Branching.leaf (hx : Branching x) {ρ : String → Rat} (hd : DefinedAt ρ x) (h : x.opCount = 0) :
    (∃ q, x = rat q) ∨ ∃ s, x = var s := by
  cases x with
  | rat q => exact .inl ⟨q, rfl⟩
  | var s => exact .inr ⟨s, rfl⟩
  | add ts =>
    have hlen := hx ts (.inl rfl)
    rw [opCount] at h
    omega
  | mul fs =>
    have hlen := hx fs (.inr rfl)
    rw [opCount] at h
    split at h
    · -- a leading `-1` counts as a sign
      rename_i hsign
      match fs with
      | rat q :: fs =>
        obtain rfl : q = -1 := by simpa [beginsWithMinusOne] using hsign
        simp [opCountAll, opCount] at h
    · omega
  | pow b y => simp [opCount] at h
  | fn f y => simp [opCount] at h
  | _ => exact hd.elim

/-! ## The form zero -/

section Zero

/-- Rational expressions in one variable that the simplifier can take apart: not too large, defined somewhere, with
both sides over the common denominator read as polynomials, and the expression itself as well if this denominator is
one. The denominator is not the zero polynomial, since the expression is defined somewhere. -/
structure Reducible (v : String) (x : Expr) : Prop where
  branching : Branching x
  varsIn : VarsIn (· = v) x
  size : x.size ≤ maxSimplifiedSize
  defined : ∃ a, DefinedAt (fun _ => a) x
  num : ∃ p, ReadsAs v x.toFraction.num p
  den : ∃ q, ReadsAs v x.toFraction.den q
  self : x.toFraction.den.isOne = true → ∃ p, ReadsAs v x p

/-- The value is zero at every rational at which there is one. -/
def Vanishes (x : Expr) : Prop := ∀ a : Rat, DefinedAt (fun _ => a) x → valueAt (fun _ => a) x = 0

mutual

/-- If there is no other variable, the list of variables has at most one entry. -/
theorem collectVars_cases : ∀ (x : Expr) (acc : List String), VarsIn (· = v) x → acc = [] ∨ acc = [v] →
    x.collectVars acc = [] ∨ x.collectVars acc = [v]
  | var s, acc, h, hacc => by
    obtain rfl : s = v := h
    right
    rcases hacc with rfl | rfl <;> simp [collectVars, insertName]
  | add ts, acc, h, hacc => collectVarsAll_cases ts acc ((hereditary_varsIn.add ts).1 h) hacc
  | mul fs, acc, h, hacc => collectVarsAll_cases fs acc ((hereditary_varsIn.mul fs).1 h) hacc
  | pow b x, acc, h, hacc => collectVars_cases x _ h.2 (collectVars_cases b acc h.1 hacc)
  | fn f x, acc, h, hacc => collectVars_cases x acc h hacc
  | rat _, _, _, hacc | pi, _, _, hacc | e, _, _, hacc | i, _, _, hacc | infinity, _, _, hacc
  | undefined, _, _, hacc => hacc

theorem collectVarsAll_cases : ∀ (xs : List Expr) (acc : List String), (∀ x ∈ xs, VarsIn (· = v) x) →
    acc = [] ∨ acc = [v] → collectVarsAll xs acc = [] ∨ collectVarsAll xs acc = [v]
  | [], _, _, hacc => hacc
  | x :: xs, acc, h, hacc => by
    obtain ⟨hx, hxs⟩ := List.forall_mem_cons.1 h
    exact collectVarsAll_cases xs _ hxs (collectVars_cases x acc hx hacc)

end

theorem toPoly_eq_zero_of_eval {p : RatPoly} {S : Set Rat} (hS : S.Infinite) (h : ∀ b ∈ S, p.eval b = 0) :
    p.toPoly = 0 := by
  refine Polynomial.eq_zero_of_infinite_isRoot _ (hS.mono fun b hb => ?_)
  exact (RatPoly.eval_eq p b).symm.trans (h b hb)

namespace Reducible

theorem plain (h : Reducible v x) : Plain (· = v) x := by
  obtain ⟨a, ha⟩ := h.defined
  exact plain_of_definedAt x ha h.varsIn

theorem infinite (h : Reducible v x) : {b : Rat | DefinedAt (fun _ => b) x}.Infinite := by
  obtain ⟨a, ha⟩ := h.defined
  exact infinite_definedAt ha

/-- Over the denominator one the expansion is zero. -/
theorem expand_eq_zero (h : Reducible v x) (hzero : Vanishes x) (hone : x.toFraction.den.isOne = true) :
    x.expand = rat 0 := by
  obtain ⟨p, hp⟩ := h.self hone
  have hpoly := toPoly_eq_zero_of_eval h.infinite fun b hb => (h.plain.ratPoly?_value hb hp.reading).trans (hzero b hb)
  obtain ⟨a, ha⟩ := h.defined
  obtain ⟨hd, hv⟩ := h.plain.expand_keepsValue _ ha
  have hcanon := (built_expand x ha).canonical.resolve_left hd.ne_undefined
  obtain ⟨q, hq⟩ := hp.expand_eq_rat hcanon (hpoly.trans Polynomial.C_0.symm)
  rw [hq] at hv ⊢
  rw [show q = 0 from hv.trans (hzero a ha)]

end Reducible

/-- Zero over a denominator that does not vanish everywhere. -/
theorem quotient_eq_zero {d : Expr} (hd : Built d) {ρ : String → Rat} (hdef : DefinedAt ρ (rat 0 / d)) :
    rat 0 / d = rat 0 := by
  have hinv : d.inverse ≠ undefined := by
    intro hu
    have hundef : rat 0 / d = undefined := product_undefined (by simp [hu])
    rw [hundef] at hdef
    exact hdef
  exact product_zero ((Postfix.built_inverse hd).canonical.resolve_left hinv)

theorem isZero_of_toPoly {p : RatPoly} (h : p.toPoly = 0) : p.isZero = true := by
  by_contra hne
  exact RatPoly.toPoly_ne_zero (Bool.eq_false_of_not_eq_true hne) h

/-- The zero polynomial over another one reduces to zero. -/
theorem reduceFraction?_zero {p q : RatPoly} (hp : p.toPoly = 0) {a : Rat} (hq : q.eval a ≠ 0) (v : String) :
    reduceFraction? p q v = some (rat 0) := by
  have hq0 : q.isZero = false := by
    refine Bool.eq_false_of_not_eq_true fun hz => hq ?_
    rw [RatPoly.eval_eq, RatPoly.toPoly_eq_zero hz, Polynomial.eval_zero]
  have hg := RatPoly.gcd_isZero (a := p) hq0
  obtain ⟨hdvdp, hdvdq⟩ := RatPoly.gcd_dvd p q
  have htop := RatPoly.divMod_of_dvd hg hdvdp
  have hbottom := RatPoly.divMod_of_dvd hg hdvdq
  have hbottom0 : (q.divMod (p.gcd q)).1.isZero = false := by
    refine Bool.eq_false_of_not_eq_true fun hz => RatPoly.toPoly_ne_zero hq0 ?_
    rw [hbottom, RatPoly.toPoly_eq_zero hz, zero_mul]
  have hscaled (c : Rat) : ofRatPoly ((p.divMod (p.gcd q)).1.scale c) v = rat 0 := by
    have hzero : ((p.divMod (p.gcd q)).1.scale c).toPoly = 0 := by
      have htop0 := (mul_eq_zero.1 (htop.symm.trans hp)).resolve_right (RatPoly.toPoly_ne_zero hg)
      rw [RatPoly.toPoly_scale, htop0, mul_zero]
    rw [ofRatPoly, List.isEmpty_iff.1 (isZero_of_toPoly hzero)]
    simp [polyTerms, sum, flattenTerms, TermGroups.empty, ofTerms, zero]
  have hreduce : reduceFraction? p q v =
      some (rat 0 / ofRatPoly (q.divMod (p.gcd q)).1.monic v) := by
    rw [reduceFraction?, if_neg (by simp [hq0])]
    dsimp only
    rw [if_neg (by simp [hbottom0]), hscaled]
  obtain ⟨hd, -⟩ := reduceFraction?_value (.ofVars fun _ => a) hq hreduce
  rw [hreduce, quotient_eq_zero (ofRatPoly_built _ _) hd]

namespace Reducible

/-- Over any other denominator the reduced fraction is zero. -/
theorem cancel?_eq_zero (h : Reducible v x) (hzero : Vanishes x) (hone : x.toFraction.den.isOne = false) :
    x.cancel? = some (rat 0) := by
  obtain ⟨a, ha⟩ := h.defined
  obtain ⟨p, hp⟩ := h.num
  obtain ⟨q, hq⟩ := h.den
  have hsides := inherited_plain.toFraction h.plain
  have hvalue (b : Rat) (hb : DefinedAt (fun _ => b) x) := toFraction_hasValue x hb
  obtain ⟨hdn, hvn⟩ := hsides.num.expand_keepsValue _ (hvalue a ha).num_defined
  obtain ⟨hdd, hvd⟩ := hsides.den.expand_keepsValue _ (hvalue a ha).den_defined
  have hn := (built_expand _ (hvalue a ha).num_defined).canonical.resolve_left hdn.ne_undefined
  have hd := (built_expand _ (hvalue a ha).den_defined).canonical.resolve_left hdd.ne_undefined
  -- The numerator is the zero polynomial, and the denominator does not vanish at `a`.
  have hpoly : p.toPoly = 0 := toPoly_eq_zero_of_eval h.infinite fun b hb => by
    rw [hsides.num.ratPoly?_value (hvalue b hb).num_defined hp.reading, valueAt, (hvalue b hb).num_eq,
      ← valueAt, hzero b hb, zero_mul]
  have hqa : q.eval a ≠ 0 := by
    rw [hsides.den.ratPoly?_value (hvalue a ha).den_defined hq.reading]
    exact (hvalue a ha).den_ne_zero
  have hd0 : x.toFraction.den.expand.isZero = false := by
    refine Bool.eq_false_of_not_eq_true fun hz => (hvalue a ha).den_ne_zero ?_
    rw [← hvd, eq_zero_of_isZero hz, eval_rat]
  rw [cancel?, hone, if_neg (by simp)]
  dsimp only
  rw [hd0, if_neg (by simp)]
  rcases collectVars_cases _ _ hsides.den.expand.varsIn
    (collectVars_cases _ [] hsides.num.expand.varsIn (.inl rfl)) with hvars | hvars
  · -- Without a variable the expanded numerator is zero already.
    obtain ⟨c, hc⟩ := hp.expand_eq_rat hn (hpoly.trans Polynomial.C_0.symm)
    rw [hc, eval_rat, (hvalue a ha).num_eq, ← valueAt, hzero a ha, zero_mul] at hvn
    rw [freeVars, hvars, hc, hvn]
    have hne : eval (.ofVars fun _ => a) x.toFraction.den.expand ≠ 0 := by
      rw [hvd]
      exact (hvalue a ha).den_ne_zero
    have hdef := Defined.over (defined_rat (r := .ofVars fun _ => a) 0) hdd hne
    exact congrArg some (quotient_eq_zero hd.built hdef.1)
  · rw [freeVars, hvars]
    dsimp only
    rw [hp.ratPoly?_expand hn, hq.ratPoly?_expand hd]
    exact reduceFraction?_zero hpoly hqa v

/-- The simplifier finds out whether an expression vanishes. -/
theorem simplify_eq_zero_iff (h : Reducible v x) : x.simplify = rat 0 ↔ Vanishes x := by
  constructor
  · intro hs a ha
    have hv := (h.plain.simplify_keepsValue _ ha).2
    rw [hs] at hv
    exact hv.symm
  · intro hzero
    obtain ⟨a, ha, hne⟩ : ∃ a, DefinedAt (fun _ => a) x ∧ a ≠ 0 := by
      obtain ⟨a, ha, hne⟩ := h.infinite.exists_notMem_finset {0}
      exact ⟨a, ha, by simpa using hne⟩
    -- Zero is among the forms and has no visible operations, so the answer has none.
    have hform : rat 0 ∈ x :: simplifyForms x := by
      cases hone : x.toFraction.den.isOne with
      | true => exact h.expand_eq_zero hzero hone ▸ expand_mem_forms ha h.plain
      | false => exact cancel?_mem_forms (h.cancel?_eq_zero hzero hone)
    have hops : x.simplify.opCount = 0 := by
      have hle := fewestOps_le x (simplifyForms x) _ hform
      rw [simplify, if_neg (not_lt.2 h.size)]
      simpa [opCount] using hle
    obtain ⟨hd, hv⟩ := h.plain.simplify_keepsValue _ ha
    have hbranching : Branching x.simplify := by
      rcases simplify_mem x with hself | hmem
      · rw [hself]
        exact h.branching
      · rcases built_of_mem_simplifyForms ha h.plain hmem with hself | hbuilt
        · rw [hself]
          exact h.branching
        · exact (hbuilt.canonical.resolve_left hd.ne_undefined).branching
    -- Of the leaves only zero has the value zero at `a`.
    rcases hbranching.leaf hd hops with ⟨q, hq⟩ | ⟨s, hs⟩
    · rw [hq] at hv ⊢
      rw [show q = 0 from hv.trans (hzero a ha)]
    · rw [hs] at hv
      exact absurd (hv.trans (hzero a ha)) hne

/-- The simplifier has the answer zero for a rational expression in one variable exactly if its value is zero at every
rational at which it is defined, and the first tier calls an equation true always exactly if the difference of its
sides is such an expression. -/
theorem decides_zero (h : Reducible v x) :
    (x.simplify = rat 0 ↔ ∀ a : Rat, DefinedAt (fun _ => a) x → valueAt (fun _ => a) x = 0) ∧
      ∀ (lhs rhs : Expr) (unknown : String) (settings : Settings) (before : Verdict), x = lhs - rhs →
        ((identityTier (Problem.ofSides lhs rhs unknown settings) before).1 = some .always ↔
          ∀ a : Rat, DefinedAt (fun _ => a) x → valueAt (fun _ => a) x = 0) := by
  refine ⟨h.simplify_eq_zero_iff, ?_⟩
  rintro lhs rhs unknown settings before rfl
  have htier : (identityTier (Problem.ofSides lhs rhs unknown settings) before).1 = some .always ↔
      (lhs - rhs).simplify = rat 0 := by
    cases hs : (lhs - rhs).simplify <;> simp [identityTier, Problem.ofSides, hs, isZero]
  exact htier.trans h.simplify_eq_zero_iff

/-- `x / (x + 1) + 1 / (x + 1)`. -/
def wholeInParts : Expr :=
  add [mul [var "x", pow (add [var "x", rat 1]) (rat (-1))], pow (add [var "x", rat 1]) (rat (-1))]

/-- `x / (x + 1) + 1 / (x + 1) - 1`. -/
def partsLessWhole : Expr :=
  add [mul [var "x", pow (add [var "x", rat 1]) (rat (-1))], pow (add [var "x", rat 1]) (rat (-1)), rat (-1)]

/-- The common denominator. -/
theorem partsLessWhole_den : partsLessWhole.toFraction.den = add [var "x", rat 1] := by cbv

theorem partsLessWhole_reducible : Reducible "x" partsLessWhole where
  branching := by simp [Branching, partsLessWhole]
  varsIn := by simp [partsLessWhole, VarsIn, AllVarsIn]
  size := by decide
  defined := ⟨0, by simp [partsLessWhole, defined_add, defined_mul, Reading.ofVars]⟩
  num := ⟨_, .of_expand_eq_rat (q := 0) (by cbv)⟩
  den := by
    have hexpand : (add [var "x", rat 1]).expand = add [var "x", rat 1] := by cbv
    have hcs : (add [var "x", rat 1]).coefficients? "x" = some [rat 1, rat 1] := by cbv
    refine ⟨.ofList [1, 1], ?_, ?_⟩
    · simp [partsLessWhole_den, ratPoly?, hcs, rat?, List.mapM_cons]
    · simp [partsLessWhole_den, hexpand, MultipliedOut, Expr.terms, Expr.factors, isSum]
  self h := by
    rw [partsLessWhole_den] at h
    cases h

/-- A fraction is split into two, and the simplifier finds that nothing is lost. -/
theorem decides_zero_partsLessWhole :
    Reducible "x" partsLessWhole ∧ partsLessWhole.simplify = rat 0 ∧
      (identityTier (Problem.ofSides wholeInParts (rat 1) "x" .default) .none).1 = some .always := by
  have hreducible : Reducible "x" partsLessWhole := partsLessWhole_reducible
  have hvanishes (a : Rat) (ha : DefinedAt (fun _ => a) partsLessWhole) :
      valueAt (fun _ => a) partsLessWhole = 0 := by
    have hne : a + 1 ≠ 0 := by
      simpa [partsLessWhole, Reading.ofVars, show ¬ (1 : Rat) ≤ 0 by decide] using ha
    have hvalue : valueAt (fun _ => a) partsLessWhole = a * (a + 1)⁻¹ + ((a + 1)⁻¹ + -1) := by
      simp [partsLessWhole, valueAt, Reading.ofVars]
    rw [hvalue]
    field_simp
    ring
  have hsides : partsLessWhole = wholeInParts - rat 1 := by cbv
  obtain ⟨hzero, htier⟩ := Reducible.decides_zero hreducible
  exact ⟨hreducible, hzero.2 hvanishes, (htier _ _ "x" .default .none hsides).2 hvanishes⟩

end Reducible

end Zero

/-! ## Expressions that are defined nowhere -/

/-- `x (x + 1) - x² - x`. -/
def hiddenZero : Expr :=
  add [mul [rat (-1), pow (var "x") (rat 2)], mul [rat (-1), var "x"], mul [var "x", add [var "x", rat 1]]]

/-- One over one plus one over zero. -/
def nowhereDefined : Expr := pow (add [pow hiddenZero (rat (-1)), rat 1]) (rat (-1))

/-- The expansion is undefined, and nothing has fewer visible operations. -/
theorem nowhereDefined_simplify : nowhereDefined.simplify = undefined := by
  have htrig : nowhereDefined.trigIdentities = nowhereDefined := by cbv
  have hexpand : nowhereDefined.expand = undefined := by cbv
  have hundef : undefined.trigIdentities = undefined := by cbv
  have hsize : ¬ maxSimplifiedSize < nowhereDefined.size := by decide
  have hops : undefined.opCount < nowhereDefined.opCount := by decide
  have hne : undefined ≠ nowhereDefined := by simp [nowhereDefined]
  rw [simplify, if_neg hsize, simplifyForms]
  simp only [htrig, hexpand, hundef, if_pos hne, fewestOps, List.foldl_cons, List.cons_append, List.nil_append,
    lt_irrefl, if_false, if_pos hops]
  exact fewestOps_eq_self rfl _

/-- Numerator and denominator are read completely, as zero and one, and the value is zero wherever there is one. But
there is none, and the answer of the simplifier is not zero. -/
theorem nowhereDefined_simplify_ne_zero :
    VarsIn (· = "x") nowhereDefined ∧ nowhereDefined.size ≤ maxSimplifiedSize ∧
      nowhereDefined.toFraction.den.isOne = false ∧ ReadsAs "x" nowhereDefined.toFraction.num (.ofList [0]) ∧
      ReadsAs "x" nowhereDefined.toFraction.den (.ofList [1]) ∧ (RatPoly.ofList [1]).isZero = false ∧
      (∀ a : Rat, DefinedAt (fun _ => a) nowhereDefined → valueAt (fun _ => a) nowhereDefined = 0) ∧
      nowhereDefined.simplify ≠ rat 0 := by
  have hden : nowhereDefined.toFraction.den =
      add [mul [rat (-1), pow (var "x") (rat 2)], mul [rat (-1), var "x"], mul [var "x", add [var "x", rat 1]],
        rat 1] := by cbv
  have hone : nowhereDefined.toFraction.den.expand = rat 1 := by
    rw [hden]
    cbv
  have hnum : nowhereDefined.toFraction.num.expand = rat 0 := by cbv
  refine ⟨by simp [nowhereDefined, hiddenZero, VarsIn, AllVarsIn], by decide, by rw [hden]; rfl,
    .of_expand_eq_rat hnum, .of_expand_eq_rat hone, by decide, fun a ha => ?_, ?_⟩
  · -- The inner denominator has the value zero.
    have hzero : -a ^ 2 + (-a + a * (a + 1)) ≠ 0 := by
      have hinner := ((defined_pow_int _ _).1 ha).1
      simpa [hiddenZero, Reading.ofVars, show ¬ (1 : Rat) ≤ 0 by decide] using hinner
    exact absurd (by ring) hzero
  · rw [nowhereDefined_simplify]
    simp

end SymbolicSolver.Expr
