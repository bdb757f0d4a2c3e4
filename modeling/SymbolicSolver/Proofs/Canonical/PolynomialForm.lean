import Mathlib.Algebra.Ring.Subring.Basic
import SymbolicSolver.Proofs.Canonical.Tidy

/-!
# Canonical polynomial expressions

A polynomial expression over a ring of rationals is built from the rationals of that ring and variables by sums,
products and powers whose exponents are natural numbers. Such an expression has a value at every assignment, and the
canonical sum, product and power lead from polynomial expressions to polynomial expressions over the same ring: the
exponents of one base are only added and multiplied, and no coefficient is divided by another. In particular no
negative power and no fraction comes in where there was none.
-/

namespace SymbolicSolver.Expr

mutual

/-- Rationals of one kind, variables, and sums, products and powers of such, the exponents being rationals of another
kind. -/
def BuiltFrom (coeff exponent : Rat → Prop) : Expr → Prop
  | rat q => coeff q
  | var _ => True
  | add ts => AllBuiltFrom coeff exponent ts
  | mul fs => AllBuiltFrom coeff exponent fs
  | pow b (rat q) => BuiltFrom coeff exponent b ∧ exponent q
  | _ => False

/-- Every expression of a list is built from rationals of the two kinds. -/
def AllBuiltFrom (coeff exponent : Rat → Prop) : List Expr → Prop
  | [] => True
  | x :: xs => BuiltFrom coeff exponent x ∧ AllBuiltFrom coeff exponent xs

end

section BuiltFrom

variable {C E : Rat → Prop}

theorem allBuiltFrom_iff (xs : List Expr) : AllBuiltFrom C E xs ↔ ∀ x ∈ xs, BuiltFrom C E x := by
  induction xs with
  | nil => simp [AllBuiltFrom]
  | cons x xs ih => simp [AllBuiltFrom, ih]

@[simp] theorem builtFrom_rat (q : Rat) : BuiltFrom C E (rat q) ↔ C q := Iff.rfl

@[simp] theorem builtFrom_var (s : String) : BuiltFrom C E (var s) := trivial

@[simp] theorem builtFrom_add (ts : List Expr) : BuiltFrom C E (add ts) ↔ ∀ t ∈ ts, BuiltFrom C E t :=
  allBuiltFrom_iff ts

@[simp] theorem builtFrom_mul (fs : List Expr) : BuiltFrom C E (mul fs) ↔ ∀ f ∈ fs, BuiltFrom C E f :=
  allBuiltFrom_iff fs

@[simp] theorem builtFrom_pow (b : Expr) (q : Rat) : BuiltFrom C E (pow b (rat q)) ↔ BuiltFrom C E b ∧ E q := Iff.rfl

/-- The exponent of a power is a rational. -/
theorem BuiltFrom.exponent {b x : Expr} (h : BuiltFrom C E (pow b x)) : ∃ q, x = rat q := by
  cases x with
  | rat q => exact ⟨q, rfl⟩
  | _ => exact h.elim

end BuiltFrom

/-- A rational expression: rationals, variables, and sums, products and whole powers of such. -/
abbrev IsRational : Expr → Prop := BuiltFrom (fun _ => True) fun q => q.den = 1

/-- A natural number as an exponent. -/
def NaturalExponent (q : Rat) : Prop := q.den = 1 ∧ 0 ≤ q

/-- A polynomial expression with coefficients in a ring of rationals. -/
abbrev PolynomialOver (S : Subring Rat) : Expr → Prop := BuiltFrom (· ∈ S) NaturalExponent

namespace NaturalExponent

variable {p q : Rat}

theorem one : NaturalExponent 1 := ⟨rfl, by norm_num⟩

theorem natCast (n : Nat) : NaturalExponent n := ⟨Rat.den_natCast n, by positivity⟩

theorem exists_natCast (h : NaturalExponent q) : ∃ n : Nat, q = n := by
  obtain ⟨n, hn⟩ := Int.eq_ofNat_of_zero_le (Rat.num_nonneg.2 h.2)
  refine ⟨n, ?_⟩
  rw [← Rat.coe_int_num_of_den_eq_one h.1, hn, Int.cast_natCast]

theorem add (hp : NaturalExponent p) (hq : NaturalExponent q) : NaturalExponent (p + q) := by
  obtain ⟨m, rfl⟩ := hp.exists_natCast
  obtain ⟨n, rfl⟩ := hq.exists_natCast
  exact_mod_cast natCast (m + n)

theorem mul (hp : NaturalExponent p) (hq : NaturalExponent q) : NaturalExponent (p * q) := by
  obtain ⟨m, rfl⟩ := hp.exists_natCast
  obtain ⟨n, rfl⟩ := hq.exists_natCast
  exact_mod_cast natCast (m * n)

end NaturalExponent

namespace PolynomialOver

variable {S : Subring Rat}

/-! ## Values -/

/-- No operation of a polynomial expression can fail. -/
theorem defined {r : Reading} : ∀ {x : Expr}, PolynomialOver S x → Defined r x
  | rat _, _ | var _, _ => trivial
  | add ts, h => (defined_add ts).2 fun t ht => defined ((builtFrom_add ts).1 h t ht)
  | mul fs, h => (defined_mul fs).2 fun f hf => defined ((builtFrom_mul fs).1 h f hf)
  | pow b (rat q), h => ⟨defined h.1, h.2.1, .inl h.2.2⟩

theorem zero : PolynomialOver S zero := S.zero_mem

theorem one : PolynomialOver S one := S.one_mem



/-! ## Sums -/

theorem flattenTerms {ts : List Expr} (h : ∀ t ∈ ts, PolynomialOver S t) :
    ∀ t ∈ flattenTerms ts, PolynomialOver S t :=
  fun t ht => (flattenTerms_all (builtFrom_add _).1 h t ht).1

theorem ofFactors {fs : List Expr} : PolynomialOver S (ofFactors fs) ↔ ∀ f ∈ fs, PolynomialOver S f := by
  unfold Expr.ofFactors
  split
  · simp
  · exact builtFrom_mul _

theorem splitCoeff {t : Expr} (h : PolynomialOver S t) :
    t.splitCoeff.1 ∈ S ∧ PolynomialOver S t.splitCoeff.2 := by
  unfold Expr.splitCoeff
  split
  · exact ⟨h, one⟩
  · rw [PolynomialOver, builtFrom_mul, List.forall_mem_cons] at h
    exact ⟨h.1, ofFactors.2 h.2⟩
  · exact ⟨S.one_mem, h⟩

theorem withCoeff {c : Rat} (hc : c ∈ S) {x : Expr} (h : PolynomialOver S x) : PolynomialOver S (withCoeff c x) := by
  unfold Expr.withCoeff
  split
  · exact hc
  · split
    · exact h
    · split
      · exact (builtFrom_mul _).2 (List.forall_mem_cons.2 ⟨hc, (builtFrom_mul _).1 h⟩)
      · exact (builtFrom_mul _).2 (by simpa using ⟨hc, h⟩)

theorem ofTerms {ts : List Expr} (h : ∀ t ∈ ts, PolynomialOver S t) : PolynomialOver S (ofTerms ts) := by
  unfold Expr.ofTerms
  split
  · exact zero
  · exact h _ (List.mem_singleton_self _)
  · have hperm : (sortTerms ts).Perm ts := List.mergeSort_perm ts _
    exact (builtFrom_add _).2 fun t ht => h t (hperm.mem_iff.1 ht)

theorem collectTerm {rest : Expr} {c : Rat} (hc : c ∈ S) (hrest : PolynomialOver S rest) {gs : List (Expr × Rat)}
    (hgs : ∀ g ∈ gs, PolynomialOver S g.1 ∧ g.2 ∈ S) :
    ∀ g ∈ collectTerm rest c gs, PolynomialOver S g.1 ∧ g.2 ∈ S := by
  induction gs with
  | nil => simpa [Expr.collectTerm] using ⟨hrest, hc⟩
  | cons g gs ih =>
    obtain ⟨hg, hgs⟩ := List.forall_mem_cons.1 hgs
    rw [Expr.collectTerm]
    split
    · exact List.forall_mem_cons.2 ⟨⟨hg.1, S.add_mem hg.2 hc⟩, hgs⟩
    · exact List.forall_mem_cons.2 ⟨hg, ih hgs⟩

/-- The collected parts of a sum have their coefficients in the ring. -/
structure Terms (S : Subring Rat) (g : TermGroups) : Prop where
  constant : g.constant ∈ S
  groups : ∀ p ∈ g.groups, PolynomialOver S p.1 ∧ p.2 ∈ S

theorem Terms.insert {g : TermGroups} (hg : Terms S g) {t : Expr} (ht : PolynomialOver S t) :
    Terms S (g.insert t) := by
  unfold TermGroups.insert
  split
  · exact ⟨S.add_mem hg.constant ht, hg.groups⟩
  · rw [(defined (r := .ofVars fun _ => 0) ht).infinitySign?_eq_none]
    exact ⟨hg.constant, collectTerm (splitCoeff ht).1 (splitCoeff ht).2 hg.groups⟩

theorem Terms.insertAll {ts : List Expr} (hts : ∀ t ∈ ts, PolynomialOver S t) {g : TermGroups} (hg : Terms S g) :
    Terms S (ts.foldl TermGroups.insert g) := by
  induction ts generalizing g with
  | nil => exact hg
  | cons t ts ih =>
    obtain ⟨ht, hts⟩ := List.forall_mem_cons.1 hts
    exact ih hts (hg.insert ht)

theorem sum {ts : List Expr} (h : ∀ t ∈ ts, PolynomialOver S t) : PolynomialOver S (sum ts) := by
  have hparts := Terms.insertAll (g := .empty) (flattenTerms h) ⟨S.zero_mem, by simp [TermGroups.empty]⟩
  rw [sum_of_defined (r := .ofVars fun _ => 0) fun t ht => defined (h t ht)]
  refine ofTerms fun t ht => ?_
  rcases List.mem_append.1 ht with ht | ht
  · simp only [keptTerms, List.mem_map, List.mem_filter] at ht
    obtain ⟨g, ⟨hg, -⟩, rfl⟩ := ht
    exact withCoeff (hparts.groups g hg).2 (hparts.groups g hg).1
  · split at ht
    · exact List.mem_singleton.1 ht ▸ hparts.constant
    · simp at ht

/-! ## Products -/

theorem flattenFactors {fs : List Expr} (h : ∀ f ∈ fs, PolynomialOver S f) :
    ∀ f ∈ flattenFactors fs, PolynomialOver S f :=
  fun f hf => (flattenFactors_all (builtFrom_mul _).1 h f hf).1

/-- A base with the exponent that was collected for it. -/
def CollectedPower (S : Subring Rat) (g : Expr × Expr) : Prop :=
  PolynomialOver S g.1 ∧ ∃ q, g.2 = rat q ∧ NaturalExponent q

theorem collectBase {b : Expr} {q : Rat} (hb : PolynomialOver S b) (hq : NaturalExponent q) {gs : List (Expr × Expr)}
    (hgs : ∀ g ∈ gs, CollectedPower S g) : ∀ g ∈ collectBase b (rat q) gs, CollectedPower S g := by
  induction gs with
  | nil => simpa [Expr.collectBase] using ⟨hb, q, rfl, hq⟩
  | cons g gs ih =>
    obtain ⟨⟨hg, p, hp, hpn⟩, hgs⟩ := List.forall_mem_cons.1 hgs
    rw [Expr.collectBase]
    split
    · refine List.forall_mem_cons.2 ⟨⟨hg, p + q, ?_, hpn.add hq⟩, hgs⟩
      rw [hp, sum_rat_rat]
    · exact List.forall_mem_cons.2 ⟨⟨hg, p, hp, hpn⟩, ih hgs⟩

/-- The collected parts of a product have their coefficient in the ring, and no infinity among them. -/
structure Factors {α : Type} (S : Subring Rat) (P : α → Prop) (g : FactorGroups α) : Prop where
  coeff : g.coeff ∈ S
  noInfinity : g.hasInfinity = false
  others : ∀ f ∈ g.others, P f

theorem Factors.insertBase {g : FactorGroups (Expr × Expr)} (hg : Factors S (CollectedPower S) g) {f : Expr}
    (hf : PolynomialOver S f) : Factors S (CollectedPower S) (g.insertBase f) := by
  cases f with
  | rat q => exact ⟨S.mul_mem hg.coeff hf, hg.noInfinity, hg.others⟩
  | pow b x =>
    obtain ⟨q, rfl⟩ := hf.exponent
    exact ⟨hg.coeff, hg.noInfinity, collectBase hf.1 hf.2 hg.others⟩
  | var | add | mul => exact ⟨hg.coeff, hg.noInfinity, collectBase hf .one hg.others⟩
  | pi | e | i | infinity | undefined | fn => exact hf.elim

theorem Factors.insertFactor {g : FactorGroups Expr} (hg : Factors S (PolynomialOver S) g) {f : Expr}
    (hf : PolynomialOver S f) : Factors S (PolynomialOver S) (g.insertFactor f) := by
  cases f with
  | rat q => exact ⟨S.mul_mem hg.coeff hf, hg.noInfinity, hg.others⟩
  | var | add | mul | pow =>
    refine ⟨hg.coeff, hg.noInfinity, fun x hx => ?_⟩
    rcases List.mem_append.1 hx with hx | hx
    · exact hg.others x hx
    · exact List.mem_singleton.1 hx ▸ hf
  | pi | e | i | infinity | undefined | fn => exact hf.elim

theorem Factors.foldl {α : Type} {P : α → Prop} {insert : FactorGroups α → Expr → FactorGroups α}
    (hinsert : ∀ g, Factors S P g → ∀ f, PolynomialOver S f → Factors S P (insert g f)) {fs : List Expr}
    (hfs : ∀ f ∈ fs, PolynomialOver S f) {g : FactorGroups α} (hg : Factors S P g) :
    Factors S P (fs.foldl insert g) := by
  induction fs generalizing g with
  | nil => exact hg
  | cons f fs ih =>
    obtain ⟨hf, hfs⟩ := List.forall_mem_cons.1 hfs
    exact ih hfs (hinsert g hg f hf)

theorem collectBases {fs : List Expr} (h : ∀ f ∈ fs, PolynomialOver S f) :
    Factors S (CollectedPower S) (collectBases fs) :=
  .foldl (fun _ hg _ hf => hg.insertBase hf) h ⟨S.one_mem, rfl, by simp⟩

theorem collectRebuilt {c : Rat} (hc : c ∈ S) {fs : List Expr} (h : ∀ f ∈ fs, PolynomialOver S f) :
    Factors S (PolynomialOver S) (collectRebuilt c false fs) :=
  .foldl (fun _ hg _ hf => hg.insertFactor hf) h ⟨hc, rfl, by simp⟩

theorem assemble {c : Rat} (hc : c ∈ S) {fs : List Expr} (h : ∀ f ∈ fs, PolynomialOver S f) :
    PolynomialOver S (assemble c fs false) := by
  have hperm : (sortFactors fs).Perm fs := List.mergeSort_perm fs _
  have hsorted : ∀ f ∈ sortFactors fs, PolynomialOver S f := fun f hf => h f (hperm.mem_iff.1 hf)
  simp only [Expr.assemble, Bool.false_eq_true, if_false, List.append_nil]
  rw [ofFactors]
  split
  · exact List.forall_mem_cons.2 ⟨hc, hsorted⟩
  · exact hsorted

theorem plainProduct {fs : List Expr} (h : ∀ f ∈ fs, PolynomialOver S f) : PolynomialOver S (plainProduct fs) := by
  have hparts := collectRebuilt S.one_mem (flattenFactors h)
  simp only [Expr.plainProduct, hparts.noInfinity]
  exact assemble hparts.coeff hparts.others

theorem plainPower {b : Expr} {q : Rat} (hb : PolynomialOver S b) (hq : NaturalExponent q) :
    PolynomialOver S (plainPower b (rat q)) := by
  have hbdef := defined (r := .ofVars fun _ => 0) hb
  unfold Expr.plainPower
  rw [if_neg (by simpa using hbdef.ne_undefined)]
  split
  · exact one
  · split
    · exact hb
    · split
      · rw [if_pos (by simp [Expr.isFinite, exist])]
        exact one
      · exact ⟨hb, hq⟩

/-! ## Steps and rounds -/

/-- A power of a rational of the ring with a natural exponent is computed, or stands unevaluated. -/
theorem rationalPower {product : List Expr → Expr} {b q : Rat} (hb : b ∈ S) (hq : NaturalExponent q) (h0 : q ≠ 0) :
    PolynomialOver S (rationalPower product b q) := by
  have hpos : 0 < q := lt_of_le_of_ne hq.2 (Ne.symm h0)
  unfold Expr.rationalPower
  rw [if_pos hpos, if_pos hq.1]
  split
  · exact zero
  · split
    · obtain ⟨n, rfl⟩ := hq.exists_natCast
      rw [Rational.power_eq_zpow, Rat.num_natCast, zpow_natCast]
      exact S.pow_mem hb n
    · exact ⟨hb, hq⟩

section Steps

variable {power : Expr → Expr → Expr} {product : List Expr → Expr}
  (hpow : ∀ b q, PolynomialOver S b → NaturalExponent q → PolynomialOver S (power b (rat q)))
  (hprod : ∀ fs, (∀ f ∈ fs, PolynomialOver S f) → PolynomialOver S (product fs))

include hprod

theorem multiplyOut {parts : FactorGroups Expr} (h : Factors S (PolynomialOver S) parts) :
    PolynomialOver S (multiplyOut product parts) := by
  unfold Expr.multiplyOut
  rw [h.noInfinity]
  split
  · exact zero
  · split
    · -- a factor is a product: everything goes round once more
      refine hprod _ fun f hf => ?_
      rcases List.mem_append.1 hf with hf | hf
      · exact h.others f hf
      · exact List.mem_singleton.1 hf ▸ h.coeff
    · split
      · contradiction
      · split
        · rename_i ts hts
          have hadd : PolynomialOver S (add ts) := h.others _ (by simp [hts])
          split
          · exact hadd
          · -- the coefficient spreads over the terms of a lone sum
            refine sum fun t ht => ?_
            obtain ⟨u, hu, rfl⟩ := List.mem_map.1 ht
            exact hprod _ (by simpa using ⟨h.coeff, (builtFrom_add ts).1 hadd u hu⟩)
        · exact assemble h.coeff h.others

include hpow

theorem productStep {fs : List Expr} (h : ∀ f ∈ fs, PolynomialOver S f) :
    PolynomialOver S (productStep power product fs) := by
  have hflat := flattenFactors h
  have hbases := collectBases hflat
  have hrebuilt : ∀ f ∈ (Expr.collectBases (Expr.flattenFactors fs)).others.map fun g => power g.1 g.2,
      PolynomialOver S f := by
    intro f hf
    obtain ⟨g, hg, rfl⟩ := List.mem_map.1 hf
    obtain ⟨hb, q, hq, hn⟩ := hbases.others g hg
    rw [hq]
    exact hpow _ _ hb hn
  have hany {xs : List Expr} (hxs : ∀ x ∈ xs, PolynomialOver S x) : xs.any (· = undefined) = false := by
    simp only [List.any_eq_false, decide_eq_true_eq]
    exact fun x hx => (defined (r := .ofVars fun _ => 0) (hxs x hx)).ne_undefined
  simp only [Expr.productStep]
  rw [hany hflat, hany hrebuilt, hbases.noInfinity]
  exact multiplyOut hprod (collectRebuilt hbases.coeff hrebuilt)

theorem powerOfBase (hproduct : ∀ p q, product [rat p, rat q] = rat (p * q)) {b : Expr} {q : Rat}
    (hb : PolynomialOver S b) (hq : NaturalExponent q) : PolynomialOver S (powerOfBase power product b (rat q)) := by
  have hint : (rat q).isInteger = true := by simpa [isInteger, Rational.isInt] using hq.1
  unfold Expr.powerOfBase
  rw [hint]
  split
  · rename_i b0 x0
    obtain ⟨p, rfl⟩ := hb.exponent
    rw [Bool.true_or, if_pos rfl, hproduct]
    exact hpow _ _ hb.1 (hb.2.mul hq)
  · rw [if_pos rfl]
    refine hprod _ fun f hf => ?_
    obtain ⟨g, hg, rfl⟩ := List.mem_map.1 hf
    exact hpow _ _ ((builtFrom_mul _).1 hb g hg) hq
  · exact ⟨hb, hq⟩

theorem powerStep (hproduct : ∀ p q, product [rat p, rat q] = rat (p * q)) {b : Expr} {q : Rat}
    (hb : PolynomialOver S b) (hq : NaturalExponent q) : PolynomialOver S (powerStep power product b (rat q)) := by
  have hbase := powerOfBase hpow hprod hproduct hb hq
  have hbdef := defined (r := .ofVars fun _ => 0) hb
  unfold Expr.powerStep
  rw [if_neg (by simpa using hbdef.ne_undefined), hbdef.infinitySign?_eq_none]
  split
  · exact one
  · rename_i h0
    split
    · exact hb
    · split
      · -- a power of one
        rw [if_pos (by simp [Expr.isFinite, exist])]
        exact one
      · cases b with
        | rat p => exact rationalPower hb hq (by simpa [isZero] using h0)
        | var | add | mul | pow => exact hbase
        | pi | e | i | infinity | undefined | fn => exact hb.elim

end Steps

theorem within (n : Nat) :
    (∀ fs, (∀ f ∈ fs, PolynomialOver S f) → PolynomialOver S (productWithin n fs)) ∧
      ∀ b q, PolynomialOver S b → NaturalExponent q → PolynomialOver S (powerWithin n b (rat q)) := by
  induction n with
  | zero => exact ⟨fun _ => productStep (fun _ _ => plainPower) fun _ => plainProduct, fun _ _ => plainPower⟩
  | succ n ih =>
    obtain ⟨hprod, hpow⟩ := ih
    exact ⟨fun _ => productStep hpow hprod, fun _ _ => powerStep hpow hprod (productWithin_rat_rat n)⟩

theorem product {fs : List Expr} (h : ∀ f ∈ fs, PolynomialOver S f) : PolynomialOver S (product fs) :=
  (within _).1 fs h

theorem power {b : Expr} {q : Rat} (hb : PolynomialOver S b) (hq : NaturalExponent q) :
    PolynomialOver S (power b (rat q)) :=
  (within _).2 b q hb hq

theorem plus {x y : Expr} (hx : PolynomialOver S x) (hy : PolynomialOver S y) : PolynomialOver S (x + y) :=
  sum (by simpa using ⟨hx, hy⟩)

theorem times {x y : Expr} (hx : PolynomialOver S x) (hy : PolynomialOver S y) : PolynomialOver S (x * y) :=
  product (by simpa using ⟨hx, hy⟩)

end PolynomialOver

end SymbolicSolver.Expr
