import SymbolicSolver.Calculus.Integral
import SymbolicSolver.Proofs.Simplify.Plain

/-!
# Variables of derivatives

Subtrees and inner expressions hold no variables that the expression does not hold. A derivative has every closed
property that the expression has; so it holds no other variables either, and a change of variable brings in just the new
one.
-/

namespace SymbolicSolver.Expr

theorem varsIn_iff {p : String → Prop} {x : Expr} : VarsIn p x ↔ ∀ s, x.hasVar s = true → p s := by
  constructor
  · intro h s hs
    by_contra hp
    have hne : VarsIn (· ≠ s) x := forall_mem_freeVars.1 fun t ht => by
      rintro rfl
      exact hp (forall_mem_freeVars.2 h t ht)
    rw [(varsIn_ne_iff s x).1 hne] at hs
    cases hs
  · intro h
    refine forall_mem_freeVars.1 fun s hs => h s ?_
    by_contra hx
    exact forall_mem_freeVars.2 ((varsIn_ne_iff s x).2 (Bool.eq_false_of_not_eq_true hx)) s hs rfl

theorem varsIn_hasVar (x : Expr) : VarsIn (fun s => x.hasVar s = true) x := varsIn_iff.2 fun _ => id

theorem VarsIn.mono {p q : String → Prop} {x : Expr} (h : VarsIn p x) (hpq : ∀ s, p s → q s) : VarsIn q x :=
  varsIn_iff.2 fun s hs => hpq s (varsIn_iff.1 h s hs)

mutual

/-- The variables of a subtree are among those of the tree. -/
theorem VarsIn.subtree {p : String → Prop} : ∀ {x : Expr}, VarsIn p x → ∀ y ∈ x.subtrees, VarsIn p y
  | .add _, h => List.forall_mem_cons.2 ⟨h, AllVarsIn.subtree h⟩
  | .mul _, h => List.forall_mem_cons.2 ⟨h, AllVarsIn.subtree h⟩
  | .pow _ _, h => List.forall_mem_cons.2 ⟨h, fun y hy =>
      (List.mem_append.1 hy).elim (h.2.subtree y) (h.1.subtree y)⟩
  | .fn _ u, h => List.forall_mem_cons.2 ⟨h, VarsIn.subtree (x := u) h⟩
  | .rat _, h | .var _, h | .pi, h | .e, h | .i, h | .infinity, h | .undefined, h =>
    fun _ hy => List.mem_singleton.1 hy ▸ h

theorem AllVarsIn.subtree {p : String → Prop} : ∀ {xs : List Expr}, AllVarsIn p xs → ∀ y ∈ subtreesAll xs, VarsIn p y
  | [], _ => fun y hy => by simp [subtreesAll] at hy
  | x :: xs, h => fun y hy => by
    rw [subtreesAll, List.mem_append] at hy
    exact hy.elim (AllVarsIn.subtree h.2 y) (h.1.subtree y)

end

theorem mem_distinct {x : Expr} {xs : List Expr} (h : x ∈ distinct xs) : x ∈ xs := by
  have hfold : ∀ (xs out : List Expr), x ∈ xs.foldl (fun out x => if out.contains x then out else x :: out) out →
      x ∈ out ∨ x ∈ xs := by
    intro xs
    induction xs with
    | nil => exact fun out h => .inl h
    | cons y xs ih =>
      intro out h
      rcases ih _ h with h | h
      · dsimp only at h
        split at h
        · exact .inl h
        · exact (List.mem_cons.1 h).elim (fun heq => .inr (heq ▸ List.mem_cons_self)) .inl
      · exact .inr (List.mem_cons_of_mem _ h)
  exact (hfold xs [] (List.mem_reverse.1 h)).resolve_left List.not_mem_nil

/-- An inner expression is a subtree with the variable. -/
theorem mem_innerExprs {u x : Expr} {name : String} (h : u ∈ innerExprs x name) :
    u ∈ x.subtrees ∧ u.hasVar name = true := by
  have hmem := mem_distinct ((List.mergeSort_perm _ _).mem_iff.1 (List.mem_of_mem_take h))
  obtain ⟨hsub, hvar⟩ := List.mem_filter.1 hmem
  exact ⟨List.mem_of_mem_tail hsub, (by simpa using hvar : u.hasVar name = true ∧ _).1⟩

/-! ## Derivatives -/

namespace Closed

variable {P : Expr → Prop}

theorem funcDerivative (hP : Closed P) (f : Func) {u : Expr} (hu : P u) : P (funcDerivative f u) := by
  have hone : P one := hP.rat 1
  have happly (f : Func) : P (Expr.apply f u) := hP.apply f hu
  have hsquare {x : Expr} (hx : P x) : P (Expr.power x (int 2)) := hP.power hx (hP.rat _)
  have hcosquare : P (Expr.sqrt (one - Expr.power u (int 2))) := hP.sqrt (hP.minus hone (hsquare hu))
  have hsec : P (Expr.power u (int 2) * Expr.sqrt (one - (Expr.power u (int 2)).inverse)) :=
    hP.times (hsquare hu) (hP.sqrt (hP.minus hone (hP.inverse (hsquare hu))))
  cases f with
  | sin => exact happly _
  | cos => exact hP.neg (happly _)
  | tan => exact hP.plus hone (hsquare (happly _))
  | cot => exact hP.neg (hP.plus hone (hsquare (happly _)))
  | sec => exact hP.times (happly _) (happly _)
  | csc => exact hP.neg (hP.times (happly _) (happly _))
  | asin => exact hP.inverse hcosquare
  | acos => exact hP.neg (hP.inverse hcosquare)
  | atan => exact hP.inverse (hP.plus hone (hsquare hu))
  | acot => exact hP.neg (hP.inverse (hP.plus hone (hsquare hu)))
  | asec => exact hP.inverse hsec
  | acsc => exact hP.neg (hP.inverse hsec)
  | sinh => exact happly _
  | cosh => exact happly _
  | tanh => exact hP.minus hone (hsquare (happly _))
  | log => exact hP.inverse hu

theorem powerDerivative (hP : Closed P) (name : String) {b x db dx : Expr} (hb : P b) (hx : P x) (hdb : P db)
    (hdx : P dx) : P (powerDerivative name b x db dx) := by
  have hpow := hP.power hb hx
  have hlog := hP.apply .log hb
  unfold Expr.powerDerivative
  split
  · have hlower := hP.power hb (hP.minus hx (hP.rat 1))
    exact hP.product (by simpa using ⟨hx, hlower, hdb⟩)
  · exact hP.product (by simpa using ⟨hpow, hlog, hdx⟩)
  · have hfactor := hP.plus (hP.times hdx hlog) (hP.quotient (hP.times hx hdb) hb)
    exact hP.product (by simpa using ⟨hpow, hfactor⟩)

variable {name : String}

mutual

/-- Differentiating brings nothing in. -/
theorem derivative (hP : Closed P) : ∀ {x : Expr}, P x → P (derivative name x)
  | .rat _, _ | .pi, _ | .e, _ | .i, _ | .infinity, _ | .undefined, _ => hP.rat 0
  | .var s, _ => by
    rw [Expr.derivative]
    split
    · exact hP.rat 1
    · exact hP.rat 0
  | .add ts, h => by
    rw [Expr.derivative]
    split
    · exact hP.sum (hP.derivativeAll ts (hP.add h))
    · exact hP.rat 0
  | .mul fs, h => by
    rw [Expr.derivative]
    split
    · exact hP.sum (hP.productRule [] fs (by simp) (hP.mul h))
    · exact hP.rat 0
  | .pow b x, h => by
    obtain ⟨hb, hx⟩ := hP.pow h
    rw [Expr.derivative]
    split
    · exact hP.powerDerivative name hb hx (hP.derivative hb) (hP.derivative hx)
    · exact hP.rat 0
  | .fn f u, h => by
    have houter := hP.funcDerivative f (hP.arg h)
    have hinner := hP.derivative (hP.arg h)
    rw [Expr.derivative]
    split
    · exact hP.product (by simpa using ⟨houter, hinner⟩)
    · exact hP.rat 0

theorem derivativeAll (hP : Closed P) : ∀ ts : List Expr, (∀ t ∈ ts, P t) → ∀ t ∈ derivativeAll name ts, P t
  | [], _ => by simp [Expr.derivativeAll]
  | t :: ts, h => by
    obtain ⟨ht, hts⟩ := List.forall_mem_cons.1 h
    rw [Expr.derivativeAll]
    exact List.forall_mem_cons.2 ⟨hP.derivative ht, hP.derivativeAll ts hts⟩

theorem productRule (hP : Closed P) : ∀ before fs : List Expr, (∀ f ∈ before, P f) → (∀ f ∈ fs, P f) →
    ∀ t ∈ productRule name before fs, P t
  | before, [], _, _ => by simp [Expr.productRule]
  | before, f :: fs, hbefore, h => by
    obtain ⟨hf, hfs⟩ := List.forall_mem_cons.1 h
    have hrest := hP.productRule (f :: before) fs (List.forall_mem_cons.2 ⟨hf, hbefore⟩) hfs
    have hplace : ∀ g ∈ before.reverse ++ Expr.derivative name f :: fs, P g :=
      List.forall_mem_append.2 ⟨fun g hg => hbefore g (List.mem_reverse.1 hg),
        List.forall_mem_cons.2 ⟨hP.derivative hf, hfs⟩⟩
    rw [Expr.productRule]
    split
    · exact List.forall_mem_cons.2 ⟨hP.product hplace, hrest⟩
    · exact hrest

end

end Closed

/-- What the integrand becomes has no variables but the new one and those of the integrand. -/
theorem varsIn_inTermsOf? {p : String → Prop} {x u g : Expr} {name fresh : String} (hx : VarsIn p x)
    (hu : VarsIn p u) (h : inTermsOf? x u name fresh = some g) : VarsIn (fun s => s = fresh ∨ p s) g := by
  have hquotient : VarsIn p (x / derivative name u) := closed_varsIn.quotient hx (closed_varsIn.derivative hu)
  have hreplace {q : Expr} (hq : VarsIn p q) : VarsIn (fun s => s = fresh ∨ p s) (q.replace u (var fresh)) :=
    closed_varsIn.inherited.replace _ (hq.mono fun _ => .inr) (.inl rfl)
  simp only [inTermsOf?, Option.ite_none_left_eq_some] at h
  obtain ⟨-, h⟩ := h
  split at h
  · exact Option.some.inj h ▸ hreplace hquotient
  · obtain ⟨-, h⟩ := Option.ite_none_left_eq_some.1 h
    exact Option.some.inj h ▸ hreplace (closed_varsIn.inherited.simplify hquotient)

end SymbolicSolver.Expr
