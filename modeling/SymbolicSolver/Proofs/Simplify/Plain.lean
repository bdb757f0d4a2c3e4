import SymbolicSolver.Proofs.Canonical.Stable
import SymbolicSolver.Proofs.Simplify.Inherited

/-!
# Simplification brings nothing in

A plain expression applies no function, and its variables have a given property. Substitution of plain expressions and
simplification lead from plain expressions to plain expressions. Since no function is left to be read, their values
depend on the variables alone, and both operations keep them.
-/

namespace SymbolicSolver.Expr

variable {p q : String → Prop}

/-! ## Plain expressions -/

mutual

/-- No function is applied, and every variable has the property. -/
def Plain (p : String → Prop) : Expr → Prop
  | var s => p s
  | add ts => AllPlain p ts
  | mul fs => AllPlain p fs
  | pow b x => Plain p b ∧ Plain p x
  | fn _ _ => False
  | _ => True

/-- Every expression of a list is plain. -/
def AllPlain (p : String → Prop) : List Expr → Prop
  | [] => True
  | x :: xs => Plain p x ∧ AllPlain p xs

end

theorem allPlain_iff (xs : List Expr) : AllPlain p xs ↔ ∀ x ∈ xs, Plain p x := by
  induction xs with
  | nil => simp [AllPlain]
  | cons x xs ih => simp [AllPlain, ih]

theorem hereditary_plain : Hereditary (Plain p) where
  rat _ := trivial
  i := trivial
  infinity := trivial
  undefined := trivial
  add := allPlain_iff
  mul := allPlain_iff
  pow _ _ := Iff.rfl
  arg _ _ h := h.elim

theorem inherited_plain : Inherited (Plain p) where
  toInvariant := hereditary_plain.invariant trivial trivial
  call h _ := h.elim

@[simp] theorem plain_rat (c : Rat) : Plain p (rat c) := trivial

@[simp] theorem plain_var (s : String) : Plain p (var s) ↔ p s := Iff.rfl

@[simp] theorem plain_add (ts : List Expr) : Plain p (add ts) ↔ ∀ t ∈ ts, Plain p t := allPlain_iff ts

@[simp] theorem plain_mul (fs : List Expr) : Plain p (mul fs) ↔ ∀ f ∈ fs, Plain p f := allPlain_iff fs

@[simp] theorem plain_pow (b x : Expr) : Plain p (pow b x) ↔ Plain p b ∧ Plain p x := Iff.rfl

@[simp] theorem not_plain_fn (f : Func) (x : Expr) : ¬ Plain p (fn f x) := not_false

/-- What has a value at an assignment applies no function. -/
theorem plain_of_definedAt {ρ : String → Rat} : ∀ x : Expr, DefinedAt ρ x → VarsIn p x → Plain p x
  | rat _, _, _ => trivial
  | var _, _, h => h
  | add ts, hd, h => by
    rw [plain_add]
    exact fun t ht => plain_of_definedAt t ((defined_add ts).1 hd t ht) ((hereditary_varsIn.add ts).1 h t ht)
  | mul fs, hd, h => by
    rw [plain_mul]
    exact fun f hf => plain_of_definedAt f ((defined_mul fs).1 hd f hf) ((hereditary_varsIn.mul fs).1 h f hf)
  | pow b x, hd, h => by
    obtain ⟨n, rfl⟩ := hd.exponent
    exact ⟨plain_of_definedAt b hd.1 h.1, trivial⟩
  | fn f x, hd, _ => by simp [Defined, Reading.ofVars] at hd
  | pi, hd, _ | e, hd, _ | i, hd, _ | infinity, hd, _ | undefined, hd, _ => hd.elim

namespace Plain

variable {x y : Expr}

theorem varsIn : ∀ {x : Expr}, Plain p x → VarsIn p x
  | rat _, _ | pi, _ | e, _ | i, _ | infinity, _ | undefined, _ => trivial
  | var _, h => h
  | add ts, h => (hereditary_varsIn.add ts).2 fun t ht => ((plain_add ts).1 h t ht).varsIn
  | mul fs, h => (hereditary_varsIn.mul fs).2 fun f hf => ((plain_mul fs).1 h f hf).varsIn
  | pow _ _, h => ⟨h.1.varsIn, h.2.varsIn⟩
  | fn _ _, h => h.elim

theorem mono (hpq : ∀ s, p s → q s) : ∀ {x : Expr}, Plain p x → Plain q x
  | rat _, _ | pi, _ | e, _ | i, _ | infinity, _ | undefined, _ => trivial
  | var s, h => hpq s h
  | add ts, h => (plain_add ts).2 fun t ht => ((plain_add ts).1 h t ht).mono hpq
  | mul fs, h => (plain_mul fs).2 fun f hf => ((plain_mul fs).1 h f hf).mono hpq
  | pow _ _, h => ⟨h.1.mono hpq, h.2.mono hpq⟩
  | fn _ _, h => h.elim

/-- A plain expression is plain with its variables in any property that they have. -/
theorem of_varsIn : ∀ {x : Expr}, Plain p x → VarsIn q x → Plain q x
  | rat _, _, _ | pi, _, _ | e, _, _ | i, _, _ | infinity, _, _ | undefined, _, _ => trivial
  | var _, _, h => h
  | add ts, h, hv =>
    (plain_add ts).2 fun t ht => ((plain_add ts).1 h t ht).of_varsIn ((hereditary_varsIn.add ts).1 hv t ht)
  | mul fs, h, hv =>
    (plain_mul fs).2 fun f hf => ((plain_mul fs).1 h f hf).of_varsIn ((hereditary_varsIn.mul fs).1 hv f hf)
  | pow _ _, h, hv => ⟨h.1.of_varsIn hv.1, h.2.of_varsIn hv.2⟩
  | fn _ _, h, _ => h.elim

theorem terms (h : Plain p x) : ∀ t ∈ x.terms, Plain p t := inherited_plain.terms h

theorem factors (h : Plain p x) : ∀ f ∈ x.factors, Plain p f := inherited_plain.factors h

/-! ## Replacement -/

/-- Putting a plain value in place of a variable: the variable is gone unless the value brings it back. -/
theorem subst {s : String} (hx : Plain p x) (hy : Plain q y) (hother : ∀ v, p v → v ≠ s → q v) :
    Plain q (x.subst s y) := by
  have hcarries : Carries (Plain p) (Plain q) fun z => if z = var s then some y else none := {
    replaced := fun _ h => Option.some.inj (Option.ite_none_right_eq_some.1 h).2 ▸ hy
    var := fun {v} hv h => hother v hv (by simpa using h)
    call := fun h _ => h.elim }
  exact hcarries.replaceBy inherited_plain.toInvariant inherited_plain.toInvariant x hx

theorem rebuild (h : Plain p x) : Plain p x.rebuild := inherited_plain.replaceBy (by simp) h

/-! ## Trigonometric identities -/

theorem squaredArg?_eq_none (h : Plain p x) (f : Func) : squaredArg? f x = none := by
  cases x with
  | pow b z =>
    cases b with
    | fn g u => exact h.1.elim
    | _ => rfl
  | _ => rfl

theorem shiftRule_eq_none (h : Plain p x) : shiftRule x = none := by
  cases x with
  | fn f u => exact h.elim
  | _ => rfl

theorem sinSquareParts_eq_nil (h : Plain p x) : sinSquareParts x = [] := by
  rw [sinSquareParts, List.filterMap_eq_nil_iff]
  intro s hs
  have hmem : s.2.1 ∈ x.factors := (splits_perm hs).mem_iff.2 List.mem_cons_self
  rw [squaredArg?_eq_none (h.factors _ hmem), Option.map_none]

theorem pythagoreanRule_eq_none (h : Plain p x) : pythagoreanRule x = none := by
  cases x with
  | add ts =>
    rw [pythagoreanRule, List.findSome?_eq_none_iff]
    intro s hs
    have hmem : s.2.1 ∈ ts := (splits_perm hs).mem_iff.2 List.mem_cons_self
    rw [sinSquareParts_eq_nil ((plain_add ts).1 h _ hmem), List.findSome?_nil]
  | _ => rfl

theorem complementOf_eq_none (h : Plain p x) (c : Rat) (others : List Expr) (f g : Func) :
    complementOf c others x f g = none := by
  rw [complementOf, squaredArg?_eq_none (hereditary_plain.splitCoeff h), Option.bind_none]

theorem complementRule_eq_none (h : Plain p x) : complementRule x = none := by
  cases x with
  | add ts =>
    rw [complementRule, Option.bind_eq_none_iff]
    intro c _
    rw [List.findSome?_eq_none_iff]
    intro s hs
    have hmem : s.2.1 ∈ ts := (splits_perm hs).mem_iff.2 List.mem_cons_self
    have hterm := (plain_add ts).1 h _ hmem
    dsimp only
    rw [complementOf_eq_none hterm, complementOf_eq_none hterm, Option.or_none]
  | _ => rfl

theorem tangentRule_eq_none (h : Plain p x) : tangentRule x = none := by
  cases x with
  | mul fs =>
    rw [tangentRule, List.findSome?_eq_none_iff]
    intro s hs
    have hmem : s.2.1 ∈ fs := (splits_perm hs).mem_iff.2 List.mem_cons_self
    have hfactor := (plain_mul fs).1 h _ hmem
    have hsin : sinArg? s.2.1 = none := by
      cases hf : s.2.1 with
      | fn g u => simp [hf] at hfactor
      | _ => rfl
    rw [hsin, Option.bind_none]
  | _ => rfl

/-- No identity applies. -/
theorem applyRules_eq (h : Plain p x) : applyRules x = x := by
  rw [applyRules, h.shiftRule_eq_none, h.pythagoreanRule_eq_none, h.complementRule_eq_none,
    h.tangentRule_eq_none]
  rfl

mutual

/-- A pass only builds the tree anew. -/
theorem trigPass_eq : ∀ x : Expr, Plain p x → trigPass x = x.rebuild
  | add ts, h => by
    rw [trigPass, trigPassAll_eq ts ((plain_add ts).1 h), ← rebuild_add]
    exact h.rebuild.applyRules_eq
  | mul fs, h => by
    rw [trigPass, trigPassAll_eq fs ((plain_mul fs).1 h), ← rebuild_mul]
    exact h.rebuild.applyRules_eq
  | pow b x, h => by
    rw [trigPass, trigPass_eq b h.1, trigPass_eq x h.2, ← rebuild_pow]
    exact h.rebuild.applyRules_eq
  | fn f x, h => h.elim
  | rat _, h | var _, h | pi, h | e, h | i, h | infinity, h | undefined, h => h.applyRules_eq

theorem trigPassAll_eq : ∀ xs : List Expr, (∀ x ∈ xs, Plain p x) → trigPassAll xs = xs.map Expr.rebuild
  | [], _ => rfl
  | x :: xs, h => by
    obtain ⟨hx, hxs⟩ := List.forall_mem_cons.1 h
    rw [trigPassAll, trigPass_eq x hx, trigPassAll_eq xs hxs, List.map_cons]

end

/-! ## Expansion and simplification -/

theorem expand (h : Plain p x) : Plain p x.expand := inherited_plain.expand h

theorem cancel? (h : Plain p x) (hy : x.cancel? = some y) : Plain p y := inherited_plain.cancel? h hy

theorem simplifyForms (h : Plain p x) (hy : y ∈ simplifyForms x) : Plain p y := inherited_plain.simplifyForms h hy

/-- Simplification brings in no function and no variable. -/
theorem simplify (h : Plain p x) : Plain p x.simplify := inherited_plain.simplify h

end Plain

/-! ## Values -/

/-- Readings that agree on the variables agree on plain expressions. -/
theorem Plain.reading {r s : Reading} (hvar : ∀ v, p v → r.var v = s.var v) : ∀ {x : Expr}, Plain p x →
    (Defined r x ↔ Defined s x) ∧ eval r x = eval s x
  | rat _, _ | pi, _ | e, _ | i, _ | infinity, _ | undefined, _ => ⟨Iff.rfl, rfl⟩
  | var v, h => ⟨Iff.rfl, hvar v h⟩
  | add ts, h => by
    have hts := (plain_add ts).1 h
    rw [defined_add, defined_add, eval_add, eval_add]
    exact ⟨forall₂_congr fun t ht => ((hts t ht).reading hvar).1,
      congrArg List.sum (List.map_congr_left fun t ht => ((hts t ht).reading hvar).2)⟩
  | mul fs, h => by
    have hfs := (plain_mul fs).1 h
    rw [defined_mul, defined_mul, eval_mul, eval_mul]
    exact ⟨forall₂_congr fun f hf => ((hfs f hf).reading hvar).1,
      congrArg List.prod (List.map_congr_left fun f hf => ((hfs f hf).reading hvar).2)⟩
  | pow b x, h => by
    obtain ⟨hd, hv⟩ := h.1.reading hvar
    cases x with
    | rat n => rw [defined_pow, defined_pow, eval_pow, eval_pow, hd, hv]; simp
    | _ => exact ⟨Iff.rfl, rfl⟩
  | fn f x, h => h.elim

/-- The assignment with the angle zero for every variable. -/
def CirclePoint.ofVars (ρ : String → Rat) : CirclePoint := ⟨ρ, fun _ => 0, fun _ => 1, fun _ => by norm_num⟩

/-- What keeps the value at a point of the circle keeps it at the assignment. -/
theorem KeepsValue.ofVars {ρ : String → Rat} {x y : Expr} (hx : Plain p x) (hy : Plain q y)
    (h : KeepsValue (CirclePoint.ofVars ρ).reading x y) : KeepsValue (.ofVars ρ) x y := by
  obtain ⟨hdx, hvx⟩ := hx.reading (r := (CirclePoint.ofVars ρ).reading) (s := .ofVars ρ) fun _ _ => rfl
  obtain ⟨hdy, hvy⟩ := hy.reading (r := (CirclePoint.ofVars ρ).reading) (s := .ofVars ρ) fun _ _ => rfl
  intro hd
  obtain ⟨hd', hv'⟩ := h (hdx.2 hd)
  exact ⟨hdy.1 hd', by rw [← hvy, hv', hvx]⟩

theorem Plain.simplify_keepsValue {x : Expr} (h : Plain p x) (ρ : String → Rat) :
    KeepsValue (.ofVars ρ) x x.simplify := by
  rcases simplify_mem x with hself | hform
  · rw [hself]
    exact .refl _ x
  · exact .ofVars h (h.simplifyForms hform) (simplifyForms_keepsValue _ hform)

/-! ### Polynomials -/

section Polynomials

variable {x : Expr} {name : String}

theorem Plain.expand_keepsValue (hx : Plain p x) (ρ : String → Rat) : KeepsValue (.ofVars ρ) x x.expand :=
  .ofVars hx hx.expand fun hd => ⟨(expand_restates x hd).defined, (expand_restates x hd).value⟩

/-- The coefficients do not contain the variable. -/
theorem Plain.coefficients? {cs : List Expr} (hx : Plain p x) (h : x.coefficients? name = some cs) :
    ∀ c ∈ cs, Plain (· ≠ name) c := by
  intro c hc
  obtain ⟨hplain, hvar⟩ := inherited_plain.coefficients? hx h c hc
  exact hplain.of_varsIn ((varsIn_ne_iff name c).2 hvar)

/-- The coefficients are those of a polynomial that has the value of the expression at the variable. -/
theorem Plain.coefficients?_value {ρ : String → Rat} {cs : List Expr} (hx : Plain p x) (hd : DefinedAt ρ x)
    (h : x.coefficients? name = some cs) : RatPoly.evalList (ρ name) (cs.map (valueAt ρ)) = valueAt ρ x := by
  have hread := hx.reading (r := (CirclePoint.ofVars ρ).reading) (s := .ofVars ρ) fun _ _ => rfl
  have hcs : cs.map (eval (CirclePoint.ofVars ρ).reading) = cs.map (valueAt ρ) :=
    List.map_congr_left fun c hc => ((hx.coefficients? h c hc).reading (r := (CirclePoint.ofVars ρ).reading)
      (s := .ofVars ρ) fun _ _ => rfl).2
  rw [← hcs, valueAt, ← hread.2]
  exact Expr.coefficients?_value (p := .ofVars ρ) (hread.1.2 hd) h

/-- A polynomial that is read has the value of the expression at the variable. -/
theorem Plain.ratPoly?_value {ρ : String → Rat} {q : RatPoly} (hx : Plain p x) (hd : DefinedAt ρ x)
    (h : x.ratPoly? name = some q) : q.eval (ρ name) = valueAt ρ x := by
  have hread := hx.reading (r := (CirclePoint.ofVars ρ).reading) (s := .ofVars ρ) fun _ _ => rfl
  exact (Expr.ratPoly?_value (p := .ofVars ρ) (hread.1.2 hd) h).trans hread.2

end Polynomials

/-! ### Substitution -/

section Substitution

variable {ρ : String → Rat} {s : String} {y : Expr}

theorem subst_add (ts : List Expr) : (add ts).subst s y = sum (ts.map fun t => t.subst s y) := by
  rw [subst, replaceBy, replaceAllBy_eq_map]
  rfl

theorem subst_mul (fs : List Expr) : (mul fs).subst s y = product (fs.map fun f => f.subst s y) := by
  rw [subst, replaceBy, replaceAllBy_eq_map]
  rfl

theorem subst_pow (b x : Expr) : (pow b x).subst s y = power (b.subst s y) (x.subst s y) := rfl

theorem subst_var (v : String) : (var v).subst s y = if v = s then y else var v := by
  by_cases h : v = s <;> simp [subst, replaceBy, h]

/-- Putting a value in place of a variable is reading the variable as that value. -/
theorem subst_value (hy : DefinedAt ρ y) : ∀ x : Expr, DefinedAt (Function.update ρ s (valueAt ρ y)) x →
    DefinedAt ρ (x.subst s y) ∧
      valueAt ρ (x.subst s y) = valueAt (Function.update ρ s (valueAt ρ y)) x
  | rat c, _ => ⟨trivial, rfl⟩
  | var v, _ => by
    rw [subst_var]
    by_cases h : v = s
    · rw [if_pos h]
      exact ⟨hy, by simp [Reading.ofVars, h]⟩
    · rw [if_neg h]
      exact ⟨trivial, by simp [Reading.ofVars, h]⟩
  | add ts, hd => by
    have hts : ∀ t ∈ ts, _ := fun t ht => subst_value hy t ((defined_add ts).1 hd t ht)
    have hsum := sum_keepsValue (.ofVars ρ) (ts.map fun t => t.subst s y)
      ((defined_add _).2 (by simpa using fun t ht => (hts t ht).1))
    rw [subst_add]
    refine ⟨hsum.1, hsum.2.trans ?_⟩
    rw [eval_add, valueAt, eval_add, List.map_map]
    exact congrArg List.sum (List.map_congr_left fun t ht => (hts t ht).2)
  | mul fs, hd => by
    have hfs : ∀ f ∈ fs, _ := fun f hf => subst_value hy f ((defined_mul fs).1 hd f hf)
    have hprod := product_keepsValue (.ofVars ρ) (fs.map fun f => f.subst s y)
      ((defined_mul _).2 (by simpa using fun f hf => (hfs f hf).1))
    rw [subst_mul]
    refine ⟨hprod.1, hprod.2.trans ?_⟩
    rw [eval_mul, valueAt, eval_mul, List.map_map]
    exact congrArg List.prod (List.map_congr_left fun f hf => (hfs f hf).2)
  | pow b x, hd => by
    obtain ⟨n, rfl⟩ := hd.exponent
    obtain ⟨hdb, hn⟩ := (defined_pow b n).1 hd
    obtain ⟨hb, hvb⟩ := subst_value hy b hdb
    rw [valueAt, valueAt] at hvb
    have hpow := power_keepsValue (.ofVars ρ) (b.subst s y) (rat n) ((defined_pow _ n).2 ⟨hb, by rwa [hvb]⟩)
    rw [subst_pow]
    refine ⟨hpow.1, hpow.2.trans ?_⟩
    rw [eval_pow, hvb]
    rfl
  | fn f x, hd => by simp [Defined, Reading.ofVars] at hd
  | pi, hd | e, hd | i, hd | infinity, hd | undefined, hd => hd.elim

/-- A value that the assignment agrees with may be put in. -/
theorem subst_value_of_agrees {x : Expr} (hy : DefinedAt ρ y) (hx : DefinedAt ρ x)
    (hv : valueAt ρ y = ρ s) : DefinedAt ρ (x.subst s y) ∧ valueAt ρ (x.subst s y) = valueAt ρ x := by
  have h := subst_value (s := s) hy x
  rw [hv, Function.update_eq_self] at h
  exact h hx

end Substitution

end SymbolicSolver.Expr
