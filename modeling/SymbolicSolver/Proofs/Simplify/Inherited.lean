import SymbolicSolver.Proofs.Canonical.Closed
import SymbolicSolver.Proofs.Simplify.Basic

/-!
# What replacement and simplification keep

An invariant of the canonical operations is *inherited* if every application that is built from a tree with an
application in it has the property again. Closed properties are inherited, and so is the property to apply no function
at all. Replacement, expansion, common denominators, the trigonometric identities, and with them simplification keep
every inherited property: they take trees apart and build canonical ones from the parts.

Replacement is treated between two properties, since what a rule replaces need not have the property of the result.
-/

namespace SymbolicSolver.Expr

/-- An invariant that passes from one application to the applications built in its place. -/
structure Inherited (P : Expr → Prop) : Prop extends Invariant P where
  call : ∀ {f g x y}, P (.fn g x) → P y → P (apply f y)

theorem Closed.inherited {P : Expr → Prop} (hP : Closed P) : Inherited P where
  toInvariant := hP.toInvariant
  call _ hy := hP.apply _ hy

/-! ## Replacement -/

/-- A rule that leads from trees with one property to trees with another: its replacements have the new property, and
so have the variables that it leaves and the applications whose arguments have it. -/
structure Carries (P Q : Expr → Prop) (rule : Expr → Option Expr) : Prop where
  replaced : ∀ {x y}, P x → rule x = some y → Q y
  var : ∀ {s}, P (.var s) → rule (.var s) = none → Q (.var s)
  call : ∀ {f x y}, P (.fn f x) → Q y → Q (apply f y)

section Replacement

variable {P Q : Expr → Prop} {rule : Expr → Option Expr}

theorem Carries.getD (h : Carries P Q rule) {x y : Expr} (hx : P x) (hy : rule x = none → Q y) :
    Q ((rule x).getD y) := by
  cases hr : rule x with
  | none => exact hy hr
  | some z => exact h.replaced hx hr

mutual

theorem Carries.replaceBy (h : Carries P Q rule) (hP : Invariant P) (hQ : Invariant Q) :
    ∀ x, P x → Q (x.replaceBy rule)
  | add ts, hx => by
    have hts := h.replaceAllBy hP hQ ts (hP.add hx)
    exact h.getD hx fun _ => hQ.sum hts
  | mul fs, hx => by
    have hfs := h.replaceAllBy hP hQ fs (hP.mul hx)
    exact h.getD hx fun _ => hQ.product hfs
  | pow b x, hx => by
    have hb := h.replaceBy hP hQ b (hP.pow hx).1
    have hexp := h.replaceBy hP hQ x (hP.pow hx).2
    exact h.getD hx fun _ => hQ.power hb hexp
  | fn f u, hx => by
    have hu := h.replaceBy hP hQ u (hP.arg hx)
    exact h.getD hx fun _ => h.call hx hu
  | .var s, hx => h.getD hx fun hr => h.var hx hr
  | rat q, hx => h.getD hx fun _ => hQ.rat q
  | pi, hx => h.getD hx fun _ => hQ.pi
  | e, hx => h.getD hx fun _ => hQ.e
  | i, hx => h.getD hx fun _ => hQ.i
  | infinity, hx => h.getD hx fun _ => hQ.infinity
  | undefined, hx => h.getD hx fun _ => hQ.undefined

theorem Carries.replaceAllBy (h : Carries P Q rule) (hP : Invariant P) (hQ : Invariant Q) :
    ∀ xs : List Expr, (∀ x ∈ xs, P x) → ∀ x ∈ Expr.replaceAllBy rule xs, Q x
  | [], _ => by simp [Expr.replaceAllBy]
  | x :: xs, hxs => by
    obtain ⟨hx, hxs⟩ := List.forall_mem_cons.1 hxs
    rw [Expr.replaceAllBy]
    exact List.forall_mem_cons.2 ⟨h.replaceBy hP hQ x hx, h.replaceAllBy hP hQ xs hxs⟩

end

end Replacement

namespace Inherited

variable {P : Expr → Prop} (hP : Inherited P) {x y : Expr}

include hP

/-- A rule that keeps the property is one under which replacement keeps it. -/
theorem replaceBy {rule : Expr → Option Expr} (hrule : ∀ {x y}, P x → rule x = some y → P y) (hx : P x) :
    P (x.replaceBy rule) := by
  have hcarries : Carries P P rule := ⟨hrule, fun hs _ => hs, hP.call⟩
  exact hcarries.replaceBy hP.toInvariant hP.toInvariant x hx

theorem replace (target : Expr) {value : Expr} (hx : P x) (hvalue : P value) : P (x.replace target value) :=
  hP.replaceBy (fun _ h => (Option.some.inj (Option.ite_none_right_eq_some.1 h).2) ▸ hvalue) hx

/-! ## Trigonometric identities -/

theorem shifted {f g : Func} {u v : Expr} (hu : P (.fn g u)) (hv : P v) (k : Int) : P (shifted f v k) := by
  have happly (f : Func) : P (Expr.apply f v) := hP.call hu hv
  unfold Expr.shifted
  split
  any_goals exact happly _
  any_goals exact hP.neg (happly _)
  split
  · exact happly _
  · exact hP.neg (happly _)

omit hP in
/-- An element of a list and what stands around it. -/
theorem splits {xs : List Expr} (h : ∀ x ∈ xs, P x) {s : List Expr × Expr × List Expr}
    (hs : s ∈ SymbolicSolver.splits xs) : P s.2.1 ∧ ∀ x ∈ s.1 ++ s.2.2, P x :=
  List.forall_mem_cons.1 fun x hx => h x ((splits_perm hs).mem_iff.2 hx)

theorem shiftRule (hx : P x) (h : shiftRule x = some y) : P y := by
  unfold Expr.shiftRule at h
  split at h
  · rename_i f ts
    obtain ⟨-, h⟩ := Option.ite_none_right_eq_some.1 h
    obtain ⟨found, hfound, h⟩ := Option.bind_eq_some_iff.1 h
    obtain ⟨s, hs, hfound⟩ := List.exists_of_findSome?_eq_some hfound
    obtain ⟨c, -, rfl⟩ := Option.map_eq_some_iff.1 hfound
    obtain ⟨-, hothers⟩ := Inherited.splits (hP.add (hP.arg hx)) hs
    obtain rfl := Option.some.inj (Option.ite_none_right_eq_some.1 h).2
    exact hP.shifted hx (hP.sum hothers) _
  · cases h

theorem squaredArg? {f : Func} {u : Expr} (hx : P x) (h : squaredArg? f x = some u) : P (.fn f u) := by
  unfold Expr.squaredArg? at h
  split at h
  · obtain ⟨hg, h⟩ := Option.ite_none_right_eq_some.1 h
    obtain rfl := Option.some.inj h
    obtain ⟨rfl, -⟩ : _ = f ∧ _ := by simpa using hg
    exact (hP.pow hx).1
  · cases h

theorem squareOf {f g : Func} {u : Expr} (hu : P (.fn g u)) : P (squareOf f u) :=
  hP.power (hP.call hu (hP.arg hu)) (hP.rat _)

theorem sinSquareParts {parts : Expr × Expr} (hx : P x) (h : parts ∈ sinSquareParts x) : P parts.1 ∧ P parts.2 := by
  obtain ⟨s, hs, h⟩ := List.mem_filterMap.1 h
  obtain ⟨u, hu, rfl⟩ := Option.map_eq_some_iff.1 h
  obtain ⟨hfactor, hothers⟩ := Inherited.splits (hP.factors hx) hs
  obtain ⟨hbefore, hafter⟩ := List.forall_mem_append.1 hothers
  have hsquare := hP.squareOf (f := .cos) (hP.squaredArg? hfactor hu)
  exact ⟨hP.product (List.forall_mem_append.2 ⟨hbefore, List.forall_mem_cons.2 ⟨hsquare, hafter⟩⟩),
    hP.product hothers⟩

theorem pythagoreanRule (hx : P x) (h : pythagoreanRule x = some y) : P y := by
  unfold Expr.pythagoreanRule at h
  split at h
  · obtain ⟨s, hs, h⟩ := List.exists_of_findSome?_eq_some h
    obtain ⟨parts, hparts, h⟩ := List.exists_of_findSome?_eq_some h
    obtain ⟨hterm, hothers⟩ := Inherited.splits (hP.add hx) hs
    obtain rfl := Option.some.inj (Option.ite_none_right_eq_some.1 h).2
    refine hP.sum (List.forall_mem_append.2 ⟨fun t ht => hothers t (List.mem_of_mem_erase ht), ?_⟩)
    simpa using (hP.sinSquareParts hterm hparts).2
  · cases h

theorem complementOf {c : Rat} {others : List Expr} {f g : Func} (hothers : ∀ t ∈ others, P t) (hx : P x)
    (h : complementOf c others x f g = some y) : P y := by
  obtain ⟨u, hu, h⟩ := Option.bind_eq_some_iff.1 h
  obtain rfl := Option.some.inj (Option.ite_none_right_eq_some.1 h).2
  have hrest : P x.splitCoeff.2 := hP.splitCoeff hx
  have hsquare := hP.squareOf (f := g) (hP.squaredArg? hrest hu)
  have hterm : P (Expr.product [.rat (-x.splitCoeff.1), Expr.squareOf g u]) :=
    hP.product (by simpa using ⟨hP.rat _, hsquare⟩)
  exact hP.sum (List.forall_mem_append.2 ⟨hothers, by simpa using hterm⟩)

theorem complementRule (hx : P x) (h : complementRule x = some y) : P y := by
  unfold Expr.complementRule at h
  split at h
  · obtain ⟨c, -, h⟩ := Option.bind_eq_some_iff.1 h
    obtain ⟨s, hs, h⟩ := List.exists_of_findSome?_eq_some h
    obtain ⟨hterm, hothers⟩ := Inherited.splits (hP.add hx) hs
    have hkept : ∀ t ∈ (s.1 ++ s.2.2).filter fun w => w.rat?.isNone, P t :=
      fun t ht => hothers t (List.mem_of_mem_filter ht)
    rcases Option.or_eq_some_iff.1 h with h | ⟨-, h⟩
    · exact hP.complementOf hkept hterm h
    · exact hP.complementOf hkept hterm h
  · cases h

theorem tangentRule (hx : P x) (h : tangentRule x = some y) : P y := by
  unfold Expr.tangentRule at h
  split at h
  · obtain ⟨s, hs, h⟩ := List.exists_of_findSome?_eq_some h
    obtain ⟨u, hu, h⟩ := Option.bind_eq_some_iff.1 h
    obtain ⟨hfactor, hothers⟩ := Inherited.splits (hP.mul hx) hs
    obtain rfl := Option.some.inj (Option.ite_none_right_eq_some.1 h).2
    have hsin : P (.fn .sin u) := by
      unfold sinArg? at hu
      split at hu
      · rename_i heq
        obtain rfl := Option.some.inj hu
        exact heq ▸ hfactor
      · cases hu
    have htan : P (Expr.apply .tan u) := hP.call hsin (hP.arg hsin)
    refine hP.product (List.forall_mem_append.2 ⟨fun t ht => hothers t (List.mem_of_mem_erase ht), ?_⟩)
    simpa using htan
  · cases h

theorem applyRules (hx : P x) : P (applyRules x) := by
  unfold Expr.applyRules
  cases h : (Expr.shiftRule x).or ((Expr.pythagoreanRule x).or ((Expr.complementRule x).or (Expr.tangentRule x))) with
  | none => exact hx
  | some y =>
    simp only [Option.or_eq_some_iff] at h
    rcases h with h | ⟨-, h | ⟨-, h | ⟨-, h⟩⟩⟩
    · exact hP.shiftRule hx h
    · exact hP.pythagoreanRule hx h
    · exact hP.complementRule hx h
    · exact hP.tangentRule hx h

omit hP in
mutual

theorem trigPass (hP : Inherited P) : ∀ {x : Expr}, P x → P (trigPass x)
  | .add ts, h => by
    rw [Expr.trigPass]
    exact hP.applyRules (hP.sum (hP.trigPassAll ts (hP.add h)))
  | .mul fs, h => by
    rw [Expr.trigPass]
    exact hP.applyRules (hP.product (hP.trigPassAll fs (hP.mul h)))
  | .pow b x, h => by
    rw [Expr.trigPass]
    exact hP.applyRules (hP.power (hP.trigPass (hP.pow h).1) (hP.trigPass (hP.pow h).2))
  | .fn f x, h => by
    rw [Expr.trigPass]
    exact hP.applyRules (hP.call h (hP.trigPass (hP.arg h)))
  | .rat _, h | .var _, h | .pi, h | .e, h | .i, h | .infinity, h | .undefined, h => hP.applyRules h

theorem trigPassAll (hP : Inherited P) : ∀ xs : List Expr, (∀ x ∈ xs, P x) → ∀ x ∈ Expr.trigPassAll xs, P x
  | [], _ => by simp [Expr.trigPassAll]
  | x :: xs, h => by
    obtain ⟨hx, hxs⟩ := List.forall_mem_cons.1 h
    rw [Expr.trigPassAll]
    exact List.forall_mem_cons.2 ⟨hP.trigPass hx, hP.trigPassAll xs hxs⟩

end

theorem trigPasses (n : Nat) (hx : P x) : P (trigPasses n x) := by
  induction n generalizing x with
  | zero => exact hx
  | succ n ih =>
    rw [Expr.trigPasses]
    split
    · exact ih (hP.trigPass hx)
    · exact hx

theorem trigIdentities (hx : P x) : P x.trigIdentities := hP.trigPasses 6 hx

/-! ## Expansion -/

theorem distribute (hx : P x) (hy : P y) : P (distribute x y) := by
  unfold Expr.distribute
  split
  · exact hP.times hx hy
  · refine hP.sum fun t ht => ?_
    obtain ⟨a, ha, ht⟩ := List.mem_flatMap.1 ht
    obtain ⟨b, hb, rfl⟩ := List.mem_map.1 ht
    exact hP.times (hP.terms hx a ha) (hP.terms hy b hb)

theorem expandedPower (hx : P x) (n : Nat) : P (expandedPower x n) := by
  induction n with
  | zero => exact hx
  | succ n ih => exact hP.distribute ih hx

theorem expandPower (hx : P x) (hy : P y) : P (expandPower x y) := by
  unfold Expr.expandPower
  split
  · split
    · split
      · exact hP.expandedPower hx _
      · exact hP.inverse (hP.expandedPower hx _)
    · exact hP.power hx hy
  · exact hP.power hx hy

theorem foldl_distribute {fs : List Expr} (h : ∀ f ∈ fs, P f) (hx : P x) : P (fs.foldl Expr.distribute x) := by
  induction fs generalizing x with
  | nil => exact hx
  | cons f fs ih =>
    obtain ⟨hf, hfs⟩ := List.forall_mem_cons.1 h
    exact ih hfs (hP.distribute hx hf)

omit hP in
mutual

theorem expand (hP : Inherited P) : ∀ {x : Expr}, P x → P x.expand
  | .add ts, h => by
    rw [Expr.expand]
    exact hP.sum (hP.expandAll ts (hP.add h))
  | .mul fs, h => by
    rw [Expr.expand]
    exact hP.foldl_distribute (hP.expandAll fs (hP.mul h)) (hP.rat 1)
  | .pow b x, h => by
    rw [Expr.expand]
    exact hP.expandPower (hP.expand (hP.pow h).1) (hP.expand (hP.pow h).2)
  | .fn f x, h => by
    rw [Expr.expand]
    exact hP.call h (hP.expand (hP.arg h))
  | .rat _, h | .var _, h | .pi, h | .e, h | .i, h | .infinity, h | .undefined, h => h

theorem expandAll (hP : Inherited P) : ∀ xs : List Expr, (∀ x ∈ xs, P x) → ∀ x ∈ Expr.expandAll xs, P x
  | [], _ => by simp [Expr.expandAll]
  | x :: xs, h => by
    obtain ⟨hx, hxs⟩ := List.forall_mem_cons.1 h
    rw [Expr.expandAll]
    exact List.forall_mem_cons.2 ⟨hP.expand hx, hP.expandAll xs hxs⟩

end

/-! ## Fractions -/

omit hP in
/-- Both sides of a fraction have the property. -/
structure Sides (P : Expr → Prop) (f : Fraction) : Prop where
  num : P f.num
  den : P f.den

theorem fractionPlus {a b : Fraction} (ha : Sides P a) (hb : Sides P b) : Sides P (a.plus b) := by
  unfold Fraction.plus
  split
  · exact ⟨hP.plus ha.num hb.num, ha.den⟩
  · split
    · exact ⟨hP.plus ha.num (hP.times hb.num ha.den), ha.den⟩
    · split
      · exact ⟨hP.plus (hP.times ha.num hb.den) hb.num, hb.den⟩
      · exact ⟨hP.plus (hP.times ha.num hb.den) (hP.times hb.num ha.den), hP.times ha.den hb.den⟩

theorem fractionTimes {a b : Fraction} (ha : Sides P a) (hb : Sides P b) : Sides P (a.times b) :=
  ⟨hP.times ha.num hb.num, hP.times ha.den hb.den⟩

theorem fractionPowerOf {base : Fraction} (h : P (.pow x y)) (hbase : Sides P base) :
    Sides P (Fraction.powerOf x y base) := by
  have hwhole : Sides P (Fraction.whole (.pow x y)) := ⟨h, hP.rat 1⟩
  unfold Fraction.powerOf
  split
  · split
    · split
      · exact ⟨hP.power hbase.den (hP.rat _), hP.power hbase.num (hP.rat _)⟩
      · exact ⟨hP.rat 1, hP.power (hP.pow h).1 (hP.rat _)⟩
    · split
      · exact ⟨hP.power hbase.num (hP.rat _), hP.power hbase.den (hP.rat _)⟩
      · exact hwhole
  · exact hwhole

omit hP in
mutual

theorem toFraction (hP : Inherited P) : ∀ {x : Expr}, P x → Sides P x.toFraction
  | .add ts, h => by
    rw [Expr.toFraction]
    exact hP.sumFractions ts (hP.add h) ⟨hP.rat 0, hP.rat 1⟩
  | .mul fs, h => by
    rw [Expr.toFraction]
    exact hP.multiplyFractions fs (hP.mul h) ⟨hP.rat 1, hP.rat 1⟩
  | .pow b x, h => by
    rw [Expr.toFraction]
    exact hP.fractionPowerOf h (hP.toFraction (hP.pow h).1)
  | .rat _, _ => ⟨hP.rat _, hP.rat _⟩
  | .fn _ _, h | .var _, h | .pi, h | .e, h | .i, h | .infinity, h | .undefined, h => ⟨h, hP.rat 1⟩

theorem sumFractions (hP : Inherited P) : ∀ (ts : List Expr), (∀ t ∈ ts, P t) →
    ∀ {acc : Fraction}, Sides P acc → Sides P (sumFractions acc ts)
  | [], _, _, hacc => hacc
  | t :: ts, h, _, hacc => by
    obtain ⟨ht, hts⟩ := List.forall_mem_cons.1 h
    rw [Expr.sumFractions]
    exact hP.sumFractions ts hts (hP.fractionPlus hacc (hP.toFraction ht))

theorem multiplyFractions (hP : Inherited P) : ∀ (fs : List Expr), (∀ f ∈ fs, P f) →
    ∀ {acc : Fraction}, Sides P acc → Sides P (multiplyFractions acc fs)
  | [], _, _, hacc => hacc
  | f :: fs, h, _, hacc => by
    obtain ⟨hf, hfs⟩ := List.forall_mem_cons.1 h
    rw [Expr.multiplyFractions]
    exact hP.multiplyFractions fs hfs (hP.fractionTimes hacc (hP.toFraction hf))

end

/-! ## Polynomials -/

theorem polyTerms {v : String} (hv : P (.var v)) (k : Nat) (cs : List Rat) : ∀ t ∈ polyTerms v k cs, P t := by
  induction cs generalizing k with
  | nil => simp [Expr.polyTerms]
  | cons c cs ih =>
    have hpower : P (Expr.power (.var v) (int k)) := hP.power hv (hP.rat _)
    rw [Expr.polyTerms]
    split
    · exact ih _
    · exact List.forall_mem_cons.2 ⟨hP.product (by simpa using ⟨hP.rat c, hpower⟩), ih _⟩

theorem ofRatPoly {v : String} (hv : P (.var v)) (f : RatPoly) : P (ofRatPoly f v) :=
  hP.sum (hP.polyTerms hv 0 f.coeffs)

/-- What stands beside the power of the variable has the property, and does not contain the variable. -/
theorem monomial? {name : String} {t : Expr} {m : Nat × Expr} (ht : P t) (h : monomial? name t = some m) :
    P m.2 ∧ m.2.hasVar name = false := by
  unfold Expr.monomial? at h
  split at h
  · rename_i hvar
    obtain rfl := Option.some.inj h
    exact ⟨ht, by simpa using hvar⟩
  · obtain ⟨k, -, h⟩ := Option.map_eq_some_iff.1 h
    cases t with
    | mul fs =>
      obtain rfl := h
      refine ⟨hP.product fun f hf => hP.mul ht f (List.mem_of_mem_filter hf), ?_⟩
      refine (varsIn_ne_iff name _).1 (hereditary_varsIn.product fun f hf => (varsIn_ne_iff name f).2 ?_)
      simpa using (List.mem_filter.1 hf).2
    | _ =>
      obtain rfl := h
      exact ⟨hP.rat 1, rfl⟩

omit hP in
theorem mem_dropZeroLead {c : Expr} {cs : List Expr} (h : c ∈ dropZeroLead cs) : c ∈ cs := by
  induction cs with
  | nil => exact h
  | cons d cs ih =>
    rw [dropZeroLead] at h
    split at h
    · split at h
      · cases h
      · exact List.mem_singleton.1 h ▸ List.mem_cons_self
    · rename_i hrest
      rw [hrest] at ih
      rcases List.mem_cons.1 h with rfl | h
      · exact List.mem_cons_self
      · exact List.mem_cons_of_mem _ (ih h)

/-- So do the coefficients of a polynomial. -/
theorem coefficients? {name : String} {cs : List Expr} (hx : P x) (h : x.coefficients? name = some cs) :
    ∀ c ∈ cs, P c ∧ c.hasVar name = false := by
  obtain ⟨ms, hms, h⟩ := Option.map_eq_some_iff.1 h
  have hparts : ∀ m ∈ ms, P m.2 ∧ m.2.hasVar name = false := by
    intro m hm
    obtain ⟨t, ht, htm⟩ := exists_mem_of_forall₂ (forall₂_of_mapM_eq_some hms) hm
    exact hP.monomial? (hP.terms (hP.expand hx) t ht) htm
  obtain rfl := h
  intro c hc
  dsimp only at hc
  split at hc
  · exact List.mem_singleton.1 hc ▸ ⟨hP.rat 0, rfl⟩
  · obtain ⟨k, -, rfl⟩ := List.mem_map.1 (mem_dropZeroLead hc)
    have hcollected : ∀ x ∈ (ms.filter fun m => m.1 = k).map (·.2), P x ∧ x.hasVar name = false := by
      intro x hx
      obtain ⟨m, hm, rfl⟩ := List.mem_map.1 hx
      exact hparts m (List.mem_of_mem_filter hm)
    exact ⟨hP.sum fun x hx => (hcollected x hx).1, (varsIn_ne_iff name _).1
      (hereditary_varsIn.sum fun x hx => (varsIn_ne_iff name x).2 (hcollected x hx).2)⟩

omit hP in
mutual

/-- The variables that occur in a tree have the property. -/
theorem var (hP : Inherited P) : ∀ {x : Expr}, P x → VarsIn (fun s => P (.var s)) x
  | .add ts, h => (hereditary_varsIn.add ts).2 (hP.varAll ts (hP.add h))
  | .mul fs, h => (hereditary_varsIn.mul fs).2 (hP.varAll fs (hP.mul h))
  | .pow _ _, h => ⟨hP.var (hP.pow h).1, hP.var (hP.pow h).2⟩
  | .fn _ u, h => hP.var (x := u) (hP.arg h)
  | .var _, h => h
  | .rat _, _ | .pi, _ | .e, _ | .i, _ | .infinity, _ | .undefined, _ => trivial

theorem varAll (hP : Inherited P) : ∀ xs : List Expr, (∀ x ∈ xs, P x) → ∀ x ∈ xs, VarsIn (fun s => P (.var s)) x
  | [], _ => by simp
  | x :: xs, h => by
    obtain ⟨hx, hxs⟩ := List.forall_mem_cons.1 h
    exact List.forall_mem_cons.2 ⟨hP.var hx, hP.varAll xs hxs⟩

end

theorem reduceFraction? {n d : RatPoly} {v : String} (hv : P (.var v)) (h : reduceFraction? n d v = some y) : P y := by
  unfold Expr.reduceFraction? at h
  obtain ⟨-, h⟩ := Option.ite_none_left_eq_some.1 h
  dsimp only at h
  obtain ⟨-, h⟩ := Option.ite_none_left_eq_some.1 h
  obtain rfl := Option.some.inj h
  exact hP.quotient (hP.ofRatPoly hv _) (hP.ofRatPoly hv _)

theorem cancel? (hx : P x) (h : x.cancel? = some y) : P y := by
  have hsides := hP.toFraction hx
  have hnum := hP.expand hsides.num
  have hden := hP.expand hsides.den
  have hquotient := hP.quotient hnum hden
  simp only [Expr.cancel?, Option.ite_none_left_eq_some] at h
  obtain ⟨-, -, h⟩ := h
  split at h
  · rename_i v hv
    split at h
    · -- the only variable of the two sides has the property
      have hvars := (forall_mem_collectVars x.toFraction.den.expand _).2
        ⟨hP.var hden, forall_mem_freeVars.2 (hP.var hnum)⟩
      exact hP.reduceFraction? (hvars v (by simp [hv])) h
    · exact Option.some.inj h ▸ hquotient
  · exact Option.some.inj h ▸ hquotient

/-! ## Simplification -/

theorem simplifyForms (hx : P x) (h : y ∈ simplifyForms x) : P y := by
  simp only [Expr.simplifyForms, List.mem_cons, List.mem_append] at h
  rcases h with (rfl | h) | h
  · exact hP.trigIdentities hx
  · split at h
    · exact List.mem_singleton.1 h ▸ hP.trigIdentities (hP.expand hx)
    · cases h
  · split at h
    · rename_i f hf
      have hcancel := hP.cancel? hx hf
      rcases List.mem_cons.1 h with rfl | h
      · exact hP.trigIdentities hcancel
      · exact List.mem_singleton.1 h ▸ hcancel
    · cases h

end Inherited

/-- The answer is the expression itself or one of the forms that compete with it. -/
theorem simplify_mem (x : Expr) : x.simplify = x ∨ x.simplify ∈ simplifyForms x := by
  unfold simplify
  split
  · exact .inl rfl
  · exact List.mem_cons.1 (fewestOps_mem x (simplifyForms x))

theorem Inherited.simplify {P : Expr → Prop} (hP : Inherited P) {x : Expr} (hx : P x) : P x.simplify := by
  rcases simplify_mem x with hself | hform
  · rwa [hself]
  · exact hP.simplifyForms hx hform

end SymbolicSolver.Expr
