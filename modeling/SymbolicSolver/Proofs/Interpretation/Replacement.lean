import SymbolicSolver.Expr.Substitution
import SymbolicSolver.Proofs.Canonical.Stable
import SymbolicSolver.Proofs.Interpretation.Operations

/-!
# Values after a replacement

Replacing subtrees keeps the value if each replacement has, in a second interpretation, the value of what it replaces
in the first, and the interpretations agree on the variables and calls that stay.
-/

namespace SymbolicSolver

namespace Interpretation

open Expr

variable {A B : Type*} [CommRing A] [Algebra ℚ A] [CommRing B] [Algebra ℚ B] [Nontrivial B]

/-- What a rule puts in place of subtrees has the value that the subtrees had, and what stays keeps its value, as far
as expressions in certain variables are concerned. -/
structure Replacement (p : String → Prop) (rule : Expr → Option Expr) (I : Interpretation A) (J : Interpretation B)
    (φ : A →+* B) : Prop where
  replaced : ∀ x y, rule x = some y → I.Defined x → J.HasValue y (φ (I.eval x))
  keepsRat : ∀ q, rule (rat q) = none
  var : ∀ s, p s → rule (var s) = none → J.ofVar s = φ (I.ofVar s)
  call : ∀ f u a, VarsIn p u → I.call? f u = some a → J.HasValue (apply f (u.replaceBy rule)) (φ a)
  root : ∀ n s, I.root? n = some s → J.root? n = some (φ s)
  i : ∀ j, I.i? = some j → J.i? = some (φ j)
  lenient : I.lenient → J.lenient

namespace Replacement

variable {p : String → Prop} {rule : Expr → Option Expr} {I : Interpretation A} {J : Interpretation B} {φ : A →+* B}

omit [Nontrivial B] in
theorem getD (h : Replacement p rule I J φ) {x y : Expr} (hx : I.Defined x)
    (hy : rule x = none → J.HasValue y (φ (I.eval x))) : J.HasValue ((rule x).getD y) (φ (I.eval x)) := by
  cases hr : rule x with
  | none => exact hy hr
  | some z => exact h.replaced x z hr hx

omit [Nontrivial B] in
/-- The numbers and roots of the first interpretation go to those of the second. -/
theorem hom (h : Replacement p rule I J φ) : Hom (fun _ => False) { I with call? := fun _ _ => none } J φ where
  var _ hs := hs.elim
  call _ _ _ _ ha := nomatch ha
  root := h.root
  i := h.i
  lenient := h.lenient

set_option linter.unusedSectionVars false in
mutual

/-- A replacement keeps the value. -/
theorem hasValue (h : Replacement p rule I J φ) : ∀ x, VarsIn p x → I.Defined x →
    J.HasValue (x.replaceBy rule) (φ (I.eval x))
  | .rat q, _, hd => by
    refine h.getD hd fun _ => ?_
    rw [eval_rat, RingHom.map_rat_algebraMap]
    exact hasValue_rat q
  | .var s, hp, hd => h.getD hd fun hr => ⟨defined_var s, h.var s hp hr⟩
  | .i, _, hd => by
    refine h.getD hd fun _ => ?_
    exact h.hom.hasValue .i trivial hd
  | .fn f u, hp, hd => by
    refine h.getD hd fun _ => ?_
    obtain ⟨a, ha⟩ := Option.isSome_iff_exists.1 hd
    have hv : I.eval (fn f u) = a := by
      change (I.call? f u).getD 0 = a
      rw [ha]
      rfl
    rw [hv]
    exact h.call f u a hp ha
  | .add ts, hp, hd => by
    refine h.getD hd fun _ => ?_
    obtain ⟨hts, hv⟩ := h.hasValueAll ts hp ((defined_add ts).1 hd)
    have hsum := hasValue_sum (I := J) _ hts
    rwa [hv, ← map_list_sum, ← eval_add] at hsum
  | .mul fs, hp, hd => by
    refine h.getD hd fun _ => ?_
    obtain ⟨hfs, hv⟩ := h.hasValueAll fs hp ((defined_mul fs).1 hd)
    have hprod := hasValue_product (I := J) _ hfs
    rwa [hv, ← map_list_prod, ← eval_mul] at hprod
  | .pow b x, hp, hd => by
    refine h.getD hd fun _ => ?_
    obtain ⟨q, rfl⟩ := hd.exponent
    have hexp : (Expr.rat q).replaceBy rule = .rat q := by
      change (rule (.rat q)).getD (.rat q) = .rat q
      rw [h.keepsRat]
      rfl
    change J.HasValue (power (b.replaceBy rule) ((Expr.rat q).replaceBy rule)) _
    rw [hexp]
    obtain ⟨n, rfl, hb, hn⟩ | ⟨hb, -⟩ := id hd.pow_cases
    · have hbase := h.hasValue b hp.1 hb
      rw [eval_pow_int, map_intPow φ hn.unit_or_nonneg]
      exact hbase.power (hn.imp (fun hu => hu.map φ) (Or.imp_right (And.imp_right h.lenient)))
    · obtain ⟨m, rfl, -, -⟩ := id hb
      have hbase : (Expr.rat m).replaceBy rule = .rat m := by
        change (rule (.rat m)).getD (.rat m) = .rat m
        rw [h.keepsRat]
        rfl
      rw [hbase]
      exact (keeps_power J _ _).hasValue (h.hom.hasValue _ ⟨trivial, trivial⟩ hd)
  | .pi, _, hd | .e, _, hd | .infinity, _, hd | .undefined, _, hd => hd.elim

theorem hasValueAll (h : Replacement p rule I J φ) : ∀ xs, AllVarsIn p xs → (∀ x ∈ xs, I.Defined x) →
    (∀ y ∈ replaceAllBy rule xs, J.Defined y) ∧ (replaceAllBy rule xs).map J.eval = (xs.map I.eval).map φ
  | [], _, _ => ⟨by simp [replaceAllBy], rfl⟩
  | x :: xs, hp, hd => by
    obtain ⟨hdx, hdxs⟩ := List.forall_mem_cons.1 hd
    obtain ⟨hx, hvx⟩ := h.hasValue x hp.1 hdx
    obtain ⟨hxs, hvxs⟩ := h.hasValueAll xs hp.2 hdxs
    rw [replaceAllBy]
    exact ⟨List.forall_mem_cons.2 ⟨hx, hxs⟩, by rw [List.map_cons, List.map_cons, List.map_cons, hvx, hvxs]⟩

end

end Replacement

end Interpretation

end SymbolicSolver
