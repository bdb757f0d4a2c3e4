import SymbolicSolver.Proofs.Calculus.Derivative

/-!
# Logarithms and arctangents

Functions applied to arguments without calls are read as given, and over the dual numbers they change as their
derivatives say. A logarithm or an arctangent of an argument that changes stands unevaluated, up to a minus sign, so its
change is that of its argument times the derivative of the function.
-/

namespace SymbolicSolver

open TrivSqZeroExt (inl inr)
open scoped DualNumber

namespace Interpretation

open Expr

variable {K : Type*} [Field K] [CharZero K]

/-! ## Reading calls -/

open Classical in
/-- Calls stand for given functions of the values of their arguments, which hold no further calls. -/
noncomputable def withCalls (k : Interpretation K) (ℓ : Func → K → K) : Interpretation K :=
  { k with call? := fun f u => if k.Defined u then some (ℓ f (k.eval u)) else none }

open Classical in
/-- Over the dual numbers a call changes as the derivative of its function says, where that has a value. -/
noncomputable def withChanges (k : Interpretation K) (ℓ : Func → K → K) (D : Interpretation K[ε]) :
    Interpretation K[ε] :=
  { D with
    call? := fun f u =>
      if D.Defined u ∧ (k.withCalls ℓ).Defined (funcDerivative f u) then
        some (inl (ℓ f (D.eval u).fst) + inr ((k.withCalls ℓ).eval (funcDerivative f u) * (D.eval u).snd))
      else none }

/-- The interpretation with other values for the variables and the calls. -/
def revalued {A : Type*} [CommRing A] (I : Interpretation A) (ofVar : String → A) (call? : Func → Expr → Option A) :
    Interpretation A :=
  { I with ofVar := ofVar, call? := call? }

/-- Whether no call has a value. -/
def CallFree {A : Type*} [CommRing A] (I : Interpretation A) : Prop := ∀ f u, I.call? f u = none

theorem CallFree.hom_withCalls {k : Interpretation K} (h : k.CallFree) (ℓ : Func → K → K) :
    Hom (fun _ => True) k (k.withCalls ℓ) (RingHom.id K) where
  var _ _ := rfl
  call f u a _ ha := by simp [h f u] at ha
  root _ _ hs := hs
  i _ hj := hj
  lenient hl := hl

theorem CallFree.hom_withChanges {D : Interpretation K[ε]} (h : D.CallFree) (k : Interpretation K) (ℓ : Func → K → K) :
    Hom (fun _ => True) D (k.withChanges ℓ D) (RingHom.id K[ε]) where
  var _ _ := rfl
  call f u a _ ha := by simp [h f u] at ha
  root _ _ hs := hs
  i _ hj := hj
  lenient hl := hl

variable {k : Interpretation K} {D : Interpretation K[ε]} {name : String}

theorem CallFree.withCalls {x : Expr} {a : K} (h : k.CallFree) (ℓ : Func → K → K) (hx : k.HasValue x a) :
    (k.withCalls ℓ).HasValue x a := by
  obtain ⟨hd, rfl⟩ := hx
  exact (h.hom_withCalls ℓ).hasValue x (varsIn_true x) hd

theorem CallFree.withChanges {x : Expr} {a : K[ε]} (h : D.CallFree) (k : Interpretation K) (ℓ : Func → K → K)
    (hx : D.HasValue x a) : (k.withChanges ℓ D).HasValue x a := by
  obtain ⟨hd, rfl⟩ := hx
  exact (h.hom_withChanges k ℓ).hasValue x (varsIn_true x) hd

theorem Tangent.withCalls (h : Tangent k D name) (hD : D.CallFree) (ℓ : Func → K → K) :
    Tangent (k.withCalls ℓ) (k.withChanges ℓ D) name where
  var := h.var
  call f u d hd := by
    obtain ⟨⟨hu, hc⟩, hd⟩ := Option.ite_none_right_eq_some.1 hd
    obtain rfl := Option.some.inj hd
    obtain ⟨huk, hvk⟩ := h.hasValue_fst hu
    obtain ⟨huD, hvD⟩ := hD.withChanges k ℓ hu.hasValue
    refine ⟨?_, huD, _, hc.hasValue, ?_⟩
    · refine (if_pos huk).trans ?_
      rw [hvk]
      simp
    · rw [hvD]
      simp
  root := h.root
  i := h.i
  strict := h.strict

/-! ## Changes -/

/-- An expression has a value over the dual numbers, with the given change. -/
def HasChange (D : Interpretation K[ε]) (x : Expr) (c : K) : Prop := ∃ d, D.HasValue x d ∧ d.snd = c

theorem Tangent.hasValue_of_hasChange (h : Tangent k D name) {x : Expr} {c : K} (hx : D.HasChange x c) :
    k.HasValue (derivative name x) c := by
  obtain ⟨_, ⟨hd, rfl⟩, rfl⟩ := hx
  exact h.hasValue_derivative x hd

theorem HasChange.defined {x : Expr} {c : K} (h : D.HasChange x c) : D.Defined x := by
  obtain ⟨_, hd, -⟩ := h
  exact hd.1

theorem HasChange.sum {xs : List Expr} {cs : List K} (h : List.Forall₂ D.HasChange xs cs) :
    D.HasChange (Expr.sum xs) cs.sum := by
  have hxs : (∀ x ∈ xs, D.Defined x) ∧ (xs.map D.eval).sum.snd = cs.sum := by
    induction h with
    | nil => simp
    | cons hx _ ih =>
      obtain ⟨_, ⟨hd, rfl⟩, rfl⟩ := hx
      refine ⟨List.forall_mem_cons.2 ⟨hd, ih.1⟩, ?_⟩
      rw [List.map_cons, List.sum_cons, TrivSqZeroExt.snd_add, ih.2, List.sum_cons]
  exact ⟨_, hasValue_sum xs hxs.1, hxs.2⟩

theorem HasChange.add {x y : Expr} {a b : K} (hx : D.HasChange x a) (hy : D.HasChange y b) :
    D.HasChange (x + y) (a + b) := by
  obtain ⟨u, hu, rfl⟩ := hx
  obtain ⟨v, hv, rfl⟩ := hy
  exact ⟨u + v, hu.add hv, TrivSqZeroExt.snd_add u v⟩

/-- A constant factor multiplies the change. -/
theorem HasChange.scale {x y : Expr} {a c : K} (hx : D.HasValue x (inl a)) (hy : D.HasChange y c) :
    D.HasChange (x * y) (a * c) := by
  obtain ⟨v, hv, rfl⟩ := hy
  exact ⟨inl a * v, hx.mul hv, by simp⟩

theorem HasChange.neg {x : Expr} {a : K} (hx : D.HasChange x a) : D.HasChange (-x) (-a) := by
  obtain ⟨u, hu, rfl⟩ := hx
  exact ⟨-u, hu.neg, TrivSqZeroExt.snd_neg u⟩

/-- What changes is no rational. -/
theorem HasValue.rat?_eq_none {x : Expr} {a : K[ε]} (hx : D.HasValue x a) (ha : a.snd ≠ 0) : x.rat? = none := by
  cases x with
  | rat q =>
    obtain ⟨-, rfl⟩ := hx
    exact absurd rfl ha
  | _ => rfl

/-! ## Logarithms -/

theorem apply_log {u : Expr} {A : Type*} [CommRing A] [Algebra ℚ A] {I : Interpretation A} (hu : I.Defined u)
    (hr : u.rat? = none) : apply .log u = fn .log u := by
  obtain ⟨k, hk⟩ := roundsFor_eq u.size
  rw [apply, hk, applyWithin, if_neg hu.ne_undefined, if_pos rfl]
  cases u with
  | rat q => simp [rat?] at hr
  | e | infinity => exact hu.elim
  | pow b x =>
    obtain ⟨q, rfl⟩ := hu.exponent
    -- No power of `e` has a value.
    cases b with
    | e => obtain ⟨-, he, -⟩ | ⟨-, m, he, -⟩ := hu <;> cases he
    | _ => rfl
  | _ => rfl

variable {ℓ : Func → K → K} {u : Expr} {a : K[ε]}

/-- The change of a call is the derivative of its function times the change of its argument. -/
theorem hasChange_fn {f : Func} {c : K} (hu : D.HasValue u a)
    (hc : (k.withCalls ℓ).HasValue (funcDerivative f u) c) : (k.withChanges ℓ D).HasChange (fn f u) (c * a.snd) := by
  obtain ⟨hd, rfl⟩ := hu
  obtain ⟨hdc, rfl⟩ := hc
  have hcall : (k.withChanges ℓ D).call? f u = some (inl (ℓ f (D.eval u).fst) +
      inr ((k.withCalls ℓ).eval (funcDerivative f u) * (D.eval u).snd)) := if_pos ⟨hd, hdc⟩
  refine ⟨_, ⟨Option.isSome_iff_exists.2 ⟨_, hcall⟩, rfl⟩, ?_⟩
  change (((k.withChanges ℓ D).call? f u).getD 0).snd = _
  rw [hcall]
  simp

open Classical in
/-- The rate at which a logarithm or an arctangent changes, where it has one. -/
noncomputable def rate? (f : Func) (a : K) : Option K :=
  match f with
  | .log => if a = 0 then none else some a⁻¹
  | .atan => if 1 + a * a = 0 then none else some (1 + a * a)⁻¹
  | _ => none

theorem HasValue.funcDerivative {k : Interpretation K} {u : Expr} {a r : K} {f : Func} (hu : k.HasValue u a)
    (hr : rate? f a = some r) : k.HasValue (funcDerivative f u) r := by
  unfold rate? at hr
  split at hr
  · obtain ⟨ha, hr⟩ := Option.ite_none_left_eq_some.1 hr
    obtain rfl := Option.some.inj hr
    rw [← Ring.inverse_eq_inv']
    exact hu.inverse (IsUnit.mk0 _ ha)
  · obtain ⟨ha, hr⟩ := Option.ite_none_left_eq_some.1 hr
    obtain rfl := Option.some.inj hr
    rw [← Ring.inverse_eq_inv']
    exact (hasValue_one.add hu.square).inverse (IsUnit.mk0 _ ha)
  · cases hr

/-- In `E` the expressions with a value in `D` keep it, and logarithms and arctangents of them change at their rates: of
those that change, and of all of them if `flat` holds. -/
structure Calls (flat : Prop) (D E : Interpretation K[ε]) : Prop where
  keeps : ∀ x a, D.HasValue x a → E.HasValue x a
  call : ∀ f u a r, D.HasValue u a → rate? f a.fst = some r → a.snd ≠ 0 ∨ flat → E.HasChange (fn f u) (r * a.snd)

theorem Tangent.calls_withChanges (h : Tangent k D name) (hk : k.CallFree) (hD : D.CallFree) (ℓ : Func → K → K) :
    Calls True D (k.withChanges ℓ D) where
  keeps _ _ hx := hD.withChanges k ℓ hx
  call f u a r hu hr _ := by
    have huk : k.HasValue u a.fst := by
      obtain ⟨hd, rfl⟩ := hu
      exact h.hasValue_fst hd
    exact hasChange_fn hu ((hk.withCalls ℓ huk).funcDerivative hr)

namespace Calls

variable {flat : Prop} {E : Interpretation K[ε]} (hE : Calls flat D E)

include hE

theorem mono {flat' : Prop} (hflat : flat' → flat) : Calls flat' D E where
  keeps := hE.keeps
  call f u a r hu hr ha := hE.call f u a r hu hr (ha.imp_right hflat)

theorem hasChange {x : Expr} {c : K} (hx : D.HasChange x c) : E.HasChange x c := by
  obtain ⟨d, hd, hc⟩ := hx
  exact ⟨d, hE.keeps x d hd, hc⟩

theorem log (hu : D.HasValue u a) (ha : a.fst ≠ 0) (hr : u.rat? = none) (hflat : a.snd ≠ 0 ∨ flat) :
    E.HasChange (apply .log u) (a.snd / a.fst) := by
  rw [apply_log hu.1 hr, div_eq_inv_mul]
  exact hE.call Func.log u a _ hu (if_neg ha) hflat

end Calls

/-! ## Arctangents -/

theorem applyWithin_atan {u : Expr} {A : Type*} [CommRing A] [Algebra ℚ A] {I : Interpretation A} (n : ℕ)
    (hu : I.Defined u) (hr : u.rat? = none) : applyWithin (n + 1) .atan u =
      if u.hasMinus then -applyWithin n .atan (-u) else fn .atan u := by
  have hplain : (undone? .atan u).getD (fn .atan u) = fn .atan u := by cases u <;> rfl
  have hspecial : specialValue? .atan u = none := by
    rw [specialValue?, if_neg (by decide), inverseValue?, hu.infinitySign?_eq_none, hr]
    rfl
  rw [applyWithin, if_neg hu.ne_undefined, if_neg (by decide), hspecial, hu.infinitySign?_eq_none]
  simp only [hplain]
  rfl

theorem Calls.atanWithin {flat : Prop} {E : Interpretation K[ε]} (hE : Calls flat D E) (n : ℕ) (hu : D.HasValue u a)
    (ha : 1 + a.fst * a.fst ≠ 0) (hsnd : a.snd ≠ 0) :
    E.HasChange (applyWithin n .atan u) (a.snd / (1 + a.fst * a.fst)) := by
  have hfn {v : Expr} {b : K[ε]} (hv : D.HasValue v b) (hb : 1 + b.fst * b.fst ≠ 0) (hbs : b.snd ≠ 0) :
      E.HasChange (fn .atan v) (b.snd / (1 + b.fst * b.fst)) := by
    rw [div_eq_inv_mul]
    exact hE.call Func.atan v b _ hv (if_neg hb) (.inl hbs)
  induction n generalizing u a with
  | zero =>
    rw [applyWithin, if_neg hu.1.ne_undefined]
    exact hfn hu ha hsnd
  | succ n ih =>
    rw [applyWithin_atan n hu.1 (hu.rat?_eq_none hsnd)]
    split
    · have hneg := (ih hu.neg (by simpa using ha) (by simpa using hsnd)).neg
      simpa [neg_div] using hneg
    · exact hfn hu ha hsnd

theorem Calls.atan {flat : Prop} {E : Interpretation K[ε]} (hE : Calls flat D E) (hu : D.HasValue u a)
    (ha : 1 + a.fst * a.fst ≠ 0) (hsnd : a.snd ≠ 0) : E.HasChange (apply .atan u) (a.snd / (1 + a.fst * a.fst)) :=
  hE.atanWithin _ hu ha hsnd

/-! ## Sums of calls -/

/-- A call whose argument has a value without reading calls, and so has the derivative of its function there. -/
def PlainCall (k : Interpretation K) (D : Interpretation K[ε]) (x : Expr) : Prop :=
  ∃ f u, x = fn f u ∧ D.Defined u ∧ k.Defined (funcDerivative f u)

/-- A term without calls, or a call behind a coefficient. -/
def CallTerm (k : Interpretation K) (D : Interpretation K[ε]) (t : Expr) : Prop :=
  D.Defined t ∨ ∃ c x, PlainCall k D x ∧ t = times c [x]

theorem CallTerm.rest {t : Expr} (h : CallTerm k D t) : D.Defined t.splitCoeff.2 ∨ PlainCall k D t.splitCoeff.2 := by
  rcases h with hd | ⟨c, x, ⟨f, u, rfl, hu⟩, rfl⟩
  · exact .inl hd.splitCoeff.1
  · refine .inr ⟨f, u, ?_, hu⟩
    rw [splitCoeff_times (by simp [rat?]) (by simp [isProduct])]
    simp

theorem callTerm_withCoeff (c : ℚ) {x : Expr} (h : D.Defined x ∨ PlainCall k D x) : CallTerm k D (withCoeff c x) := by
  rcases h with hd | ⟨f, u, rfl, hu⟩
  · exact .inl (eval_withCoeff c hd).1
  · refine .inr ⟨c, fn f u, ⟨f, u, rfl, hu⟩, ?_⟩
    rw [← withCoeff_times (by simp [rat?]) (by simp [isProduct]), times_one_singleton]

/-- A sum without calls is made of terms without calls. -/
theorem CallTerm.add {ts : List Expr} (h : CallTerm k D (Expr.add ts)) : ∀ t ∈ ts, CallTerm k D t := by
  rcases h with hd | ⟨c, x, ⟨f, u, rfl, -⟩, heq⟩
  · exact fun t ht => .inl ((defined_add ts).1 hd t ht)
  · by_cases hc : c = 1
    · rw [hc, times_one_singleton] at heq
      cases heq
    · rw [times_of_ne_one hc (by simp)] at heq
      cases heq

/-- A sum of such terms. -/
def CallSum (k : Interpretation K) (D : Interpretation K[ε]) (x : Expr) : Prop := ∀ t ∈ x.terms, CallTerm k D t

theorem CallTerm.callSum {t : Expr} (h : CallTerm k D t) : CallSum k D t := by
  cases t with
  | add ts => exact h.add
  | _ => exact fun t ht => List.mem_singleton.1 ht ▸ h

theorem callTerm_flattenTerms {xs : List Expr} (h : ∀ x ∈ xs, CallSum k D x) :
    ∀ t ∈ flattenTerms xs, CallTerm k D t := by
  intro t ht
  obtain ⟨hcall, hs⟩ := flattenTerms_all (fun hy y hmem => CallTerm.callSum (hy y hmem)) h t ht
  exact hcall t (terms_of_notSum hs ▸ List.mem_singleton_self t)

theorem CallTerm.defined {t : Expr} (h : CallTerm k D t) (hk : k.CallFree) (hD : D.CallFree) :
    (k.withChanges ℓ D).Defined t := by
  rcases h with hd | ⟨c, x, ⟨f, u, rfl, hu, hf⟩, rfl⟩
  · exact (hD.withChanges k ℓ hd.hasValue).1
  · obtain ⟨_, hfn, -⟩ := hasChange_fn (ℓ := ℓ) hu.hasValue (hk.withCalls ℓ hf.hasValue)
    exact ((keeps_times c [fn f u]) ((defined_mul _).2 (by simpa using hfn.1))).1

theorem CallSum.defined {x : Expr} (h : CallSum k D x) (hk : k.CallFree) (hD : D.CallFree) :
    (k.withChanges ℓ D).Defined x := by
  cases x with
  | add ts => exact (defined_add ts).2 fun t ht => (h t ht).defined hk hD
  | _ => exact (h _ (List.mem_singleton_self _)).defined hk hD

theorem callSum_sum (hk : k.CallFree) (hD : D.CallFree) {xs : List Expr} (h : ∀ x ∈ xs, CallSum k D x) :
    CallSum k D (sum xs) := by
  have hflat := callTerm_flattenTerms h
  have hrests := TermGroups.rests_insertAll (Q := fun x => D.Defined x ∨ PlainCall k D x)
    (fun t ht _ _ => (hflat t ht).rest) (g := .empty) (by simp [TermGroups.empty])
  rw [sum_of_defined (I := k.withChanges (fun _ => id) D) fun x hx => (h x hx).defined hk hD]
  generalize (flattenTerms xs).foldl TermGroups.insert TermGroups.empty = parts at hrests
  have hkept : ∀ t ∈ keptTerms parts.groups ++ (if parts.constant ≠ 0 then [rat parts.constant] else []),
      CallTerm k D t := by
    intro t ht
    rcases List.mem_append.1 ht with ht | ht
    · simp only [keptTerms, List.mem_map, List.mem_filter] at ht
      obtain ⟨g, ⟨hg, -⟩, rfl⟩ := ht
      exact callTerm_withCoeff g.2 (hrests g hg)
    · split at ht
      · exact .inl (List.mem_singleton.1 ht ▸ defined_rat _)
      · cases ht
  change CallSum k D (ofTerms _)
  generalize keptTerms parts.groups ++ (if parts.constant ≠ 0 then [rat parts.constant] else []) = us at hkept
  unfold ofTerms
  split
  · exact fun t ht => .inl (List.mem_singleton.1 ht ▸ defined_rat 0)
  · exact (hkept _ (List.mem_singleton_self _)).callSum
  · have hperm : (sortTerms us).Perm us := List.mergeSort_perm us _
    exact fun t ht => hkept t (hperm.mem_iff.1 ht)

/-- The derivative of such a term holds no call. -/
theorem Tangent.defined_derivative_term (h : Tangent k D name) {t : Expr} (ht : CallTerm k D t) :
    k.Defined (derivative name t) := by
  rcases ht with hd | ⟨c, x, ⟨f, u, rfl, hu, hf⟩, rfl⟩
  · exact (h.hasValue_derivative t hd).1
  · have hfn : k.Defined (derivative name (fn f u)) := by
      rw [derivative]
      split
      · exact (hasValue_product _ (by simpa using ⟨hf, (h.hasValue_derivative u hu).1⟩)).1
      · exact hasValue_zero.1
    by_cases hc : c = 1
    · rwa [hc, times_one_singleton]
    · rw [times_of_ne_one hc (by simp), derivative]
      split
      · refine (hasValue_sum _ fun y hy => ?_).1
        have hrat : (rat c).hasVar name = false := rfl
        simp only [Expr.productRule, hrat, Bool.false_eq_true, if_false] at hy
        split at hy
        · obtain rfl := List.mem_singleton.1 hy
          exact (hasValue_product _ (by simpa using hfn)).1
        · cases hy
      · exact hasValue_zero.1

/-- The derivative of a sum of such terms holds no call. -/
theorem Tangent.defined_derivative (h : Tangent k D name) {x : Expr} (hx : CallSum k D x) :
    k.Defined (derivative name x) := by
  cases x with
  | add ts =>
    rw [derivative]
    split
    · have hall : ∀ ts : List Expr, (∀ t ∈ ts, CallTerm k D t) → ∀ y ∈ Expr.derivativeAll name ts, k.Defined y := by
        intro ts hts
        induction ts with
        | nil => simp [Expr.derivativeAll]
        | cons t ts ih =>
          obtain ⟨ht, hts⟩ := List.forall_mem_cons.1 hts
          exact List.forall_mem_cons.2 ⟨h.defined_derivative_term ht, ih hts⟩
      exact (hasValue_sum _ (hall ts hx)).1
    · exact hasValue_zero.1
  | _ => exact h.defined_derivative_term (hx _ (List.mem_singleton_self _))

end Interpretation

end SymbolicSolver
