import SymbolicSolver.Proofs.Calculus.Antiderivative

/-!
# Readings with some square roots

A field need not have a square root of every natural. An interpretation that reads the imaginary unit and those square
roots that occur in an expression extends to the algebraic closure, where nothing is missing; what has a value there has
one in the field already, and the two values are the same.
-/

namespace SymbolicSolver

/-- Whether the expression is a half-odd power of the given natural. -/
def Expr.isRootOf (n : ℕ) : Expr → Bool
  | .pow (.rat b) (.rat q) => b = n && q.den = 2
  | _ => false

namespace Interpretation

open Expr

/-- The imaginary unit and the square roots that occur in the expression have been given values. -/
structure Reads {A : Type*} [CommRing A] (I : Interpretation A) (x : Expr) : Prop where
  unit : I.i?.isSome = true
  root : ∀ n, x.exist (isRootOf n) = true → (I.root? n).isSome = true

variable {K : Type*} [Field K] [CharZero K] (I : Interpretation K)

/-- The interpretation in the algebraic closure: what the field lacks is chosen there. -/
noncomputable def closure : Interpretation (AlgebraicClosure K) where
  ofVar s := algebraMap K _ (I.ofVar s)
  call? f x := (I.call? f x).map (algebraMap K _)
  root? n := some ((I.root? n).elim ((Surds.ofIsAlgClosed _).root n) (algebraMap K _))
  root_mul_self n s hs := by
    obtain rfl := Option.some.inj hs
    cases hn : I.root? n with
    | none => exact (Surds.ofIsAlgClosed _).root_mul_self n
    | some t => rw [Option.elim_some, ← map_mul, I.root_mul_self n t hn, map_natCast]
  i? := some (I.i?.elim (Surds.ofIsAlgClosed _).unit (algebraMap K _))
  i_mul_self j hj := by
    obtain rfl := Option.some.inj hj
    cases hi : I.i? with
    | none => exact (Surds.ofIsAlgClosed _).unit_mul_self
    | some t => rw [Option.elim_some, ← map_mul, I.i_mul_self t hi, map_neg, map_one]
  lenient := I.lenient

theorem hasRoots_closure : I.closure.HasRoots := ⟨fun _ => rfl, rfl⟩

theorem hom_closure : Hom (fun _ => True) I I.closure (algebraMap K _) where
  var _ _ := rfl
  call f x a _ h := by simp [closure, h]
  root n s h := by simp [closure, h]
  i j h := by simp [closure, h]
  lenient := id

variable {I}

mutual

/-- What the closure reads is read already, if no square root is missing. -/
theorem defined_of_closure : ∀ x, I.Reads x → I.closure.Defined x → I.Defined x
  | .rat _, _, _ => trivial
  | .var _, _, _ => trivial
  | .i, h, _ => h.unit
  | .fn f x, _, hd => by
    change ((I.call? f x).map _).isSome = true at hd
    rwa [Option.isSome_map] at hd
  | .add ts, h, hd => by
    refine (defined_add ts).2 (definedAll_of_closure ts h.unit (fun n hn => h.root n ?_) ((defined_add ts).1 hd))
    rw [exist, hn, Bool.or_true]
  | .mul fs, h, hd => by
    refine (defined_mul fs).2 (definedAll_of_closure fs h.unit (fun n hn => h.root n ?_) ((defined_mul fs).1 hd))
    rw [exist, hn, Bool.or_true]
  | .pow b (.rat q), h, hd => by
    rcases hd with ⟨hden, hb, hn⟩ | ⟨hden, m, rfl, hm, -⟩
    · have hbase := defined_of_closure b ⟨h.unit, fun n hn => h.root n (by simp [exist, hn])⟩ hb
      obtain ⟨-, hv⟩ := I.hom_closure.hasValue b (varsIn_true b) hbase
      refine .inl ⟨hden, hbase, ?_⟩
      rw [hv] at hn
      refine hn.imp_left fun hu => ?_
      rw [isUnit_iff_ne_zero] at hu ⊢
      exact fun h0 => hu (by rw [h0, map_zero])
    · refine .inr ⟨hden, m, rfl, hm, h.root m ?_⟩
      simp [exist, isRootOf, hden]

theorem definedAll_of_closure : ∀ xs, I.i?.isSome = true →
    (∀ n, existAny (isRootOf n) xs = true → (I.root? n).isSome = true) → (∀ x ∈ xs, I.closure.Defined x) →
      ∀ x ∈ xs, I.Defined x
  | [], _, _, _ => by simp
  | x :: xs, hi, hroot, hd => by
    obtain ⟨hx, hxs⟩ := List.forall_mem_cons.1 hd
    refine List.forall_mem_cons.2 ⟨defined_of_closure x ⟨hi, fun n hn => hroot n ?_⟩ hx,
      definedAll_of_closure xs hi (fun n hn => hroot n ?_) hxs⟩
    · rw [existAny, hn, Bool.true_or]
    · rw [existAny, hn, Bool.or_true]

end

/-- The value in the closure comes from the field. -/
theorem Reads.hasValue {x : Expr} (h : I.Reads x) {a : AlgebraicClosure K} (ha : I.closure.HasValue x a) :
    ∃ b, I.HasValue x b ∧ algebraMap K _ b = a := by
  have hd := defined_of_closure x h ha.1
  obtain ⟨-, hv⟩ := I.hom_closure.hasValue x (varsIn_true x) hd
  exact ⟨I.eval x, hd.hasValue, by rw [← hv, ha.2]⟩

end Interpretation

end SymbolicSolver
