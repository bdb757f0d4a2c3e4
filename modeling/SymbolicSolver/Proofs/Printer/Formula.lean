import SymbolicSolver.Proofs.Canonical.Product
import SymbolicSolver.Proofs.Postfix.Reading
import SymbolicSolver.Proofs.Printer.Spelling

/-!
# Characters that stand for a value

`Shows l cs x` says that the characters spell a formula of level `l` whose tree keeps the value of `x`. Formulas that
show values are put together by signs, operators and parentheses, and each way to put them together shows the sum,
product or power that it is meant to show. A text that shows a value is read back to an expression that keeps it.
-/

namespace SymbolicSolver

open Token Postfix

namespace Postfix

/-- The postfix order of a formula, unless too much is pending on the way. -/
theorem ofInfix_formula {ts : List Token} {t : Tree} (h : Derives .sum ts t) :
    ofInfix ts = .error (.tooDeep maxPending) ∨ ofInfix ts = .ok t.listing := by
  obtain ⟨out, ops, hops, hlist, hreach⟩ := h.reads [] [] [] (blocked_nil _) (by simp)
  rw [List.append_nil, List.append_nil] at hreach
  rw [List.append_nil] at hlist
  have hstart : State.initial = ⟨[], [], false⟩ := rfl
  rw [ofInfix, hstart]
  rcases hreach with hrun | hrun
  · exact .inl (by rw [hrun])
  · rw [hrun]
    dsimp only [run]
    rw [flush_eq hops, hlist, List.reverse_reverse]
    exact .inr rfl

theorem Derives.ne_nil {l : Level} {ts : List Token} {t : Tree} (h : Derives l ts t) : ts ≠ [] := by
  induction h <;> simp_all

end Postfix

namespace Expr

/-- The characters spell a formula of the level, and its tree keeps the value of the expression. -/
def Shows (l : Level) (cs : List Char) (x : Expr) : Prop :=
  ∃ ts t, Spells cs ts ∧ Derives l ts t ∧ ∀ r : Reading, KeepsValue r x t.value

namespace Shows

variable {cs ds : List Char} {x y : Expr}

/-- What is shown may be replaced by an expression whose value it keeps. -/
theorem of_keepsValue {l : Level} (h : Shows l cs y) (hxy : ∀ r : Reading, KeepsValue r x y) :
    Shows l cs x := by
  obtain ⟨ts, t, hcs, ht, hv⟩ := h
  exact ⟨ts, t, hcs, ht, fun r => (hxy r).trans (hv r)⟩

/-! ## Levels -/

theorem power (h : Shows .atom cs x) : Shows .power cs x := by
  obtain ⟨ts, t, hcs, ht, hv⟩ := h
  exact ⟨ts, t, hcs, .power ht, hv⟩

theorem signed (h : Shows .power cs x) : Shows .signed cs x := by
  obtain ⟨ts, t, hcs, ht, hv⟩ := h
  exact ⟨ts, t, hcs, .signed ht, hv⟩

theorem term (h : Shows .signed cs x) : Shows .term cs x := by
  obtain ⟨ts, t, hcs, ht, hv⟩ := h
  exact ⟨ts, t, hcs, .term ht, hv⟩

theorem sum (h : Shows .term cs x) : Shows .sum cs x := by
  obtain ⟨ts, t, hcs, ht, hv⟩ := h
  exact ⟨ts, t, hcs, .sum ht, hv⟩

/-! ## Operands -/

theorem number (n : Nat) : Shows .atom (toString n).toList (rat n) :=
  ⟨_, _, spells_number n, .number n, fun r => .refl r _⟩

theorem paren (h : Shows .sum cs x) : Shows .atom ('(' :: (cs ++ [')'])) x := by
  obtain ⟨ts, t, hcs, ht, hv⟩ := h
  exact ⟨_, t, hcs.paren, .paren ht, hv⟩

/-! ## Operators -/

theorem neg (h : Shows .signed cs x) : Shows .signed ('-' :: cs) (mul [rat (-1), x]) := by
  obtain ⟨ts, t, hcs, ht, hv⟩ := h
  refine ⟨_, .negate t, hcs.minus, .minusSign ht, fun r => ?_⟩
  exact (KeepsValue.mul_cons (.refl r _) (.mul_cons (hv r) (.refl r _))).trans (product_keepsValue r _)

theorem times (h : Shows .term cs x) (hy : Shows .signed ds y) :
    Shows .term (cs ++ ['*'] ++ ds) (mul [x, y]) := by
  obtain ⟨ts, t, hcs, ht, hv⟩ := h
  obtain ⟨us, u, hds, hu, hw⟩ := hy
  have hop : Operator.times.isMultiplicative = true := rfl
  refine ⟨_, .binary .times t u, hcs.join joins_times hds, .multiply hop ht hu, fun r => ?_⟩
  exact (KeepsValue.mul_cons (hv r) (.mul_cons (hw r) (.refl r _))).trans (product_keepsValue r _)

theorem dividedBy (h : Shows .term cs x) (hy : Shows .signed ds y) :
    Shows .term (cs ++ ['/'] ++ ds) (mul [x, pow y (rat (-1))]) := by
  obtain ⟨ts, t, hcs, ht, hv⟩ := h
  obtain ⟨us, u, hds, hu, hw⟩ := hy
  have hop : Operator.divide.isMultiplicative = true := rfl
  refine ⟨_, .binary .divide t u, hcs.join joins_divide hds, .multiply hop ht hu, fun r => ?_⟩
  have hinverse : KeepsValue r (pow y (rat (-1))) u.value.inverse :=
    ((hw r).pow _).trans (power_keepsValue r _ _)
  exact (KeepsValue.mul_cons (hv r) (.mul_cons hinverse (.refl r _))).trans (product_keepsValue r _)

theorem raise (h : Shows .atom cs x) (n : Nat) :
    Shows .power (cs ++ ['*', '*'] ++ (toString n).toList) (pow x (rat n)) := by
  obtain ⟨ts, t, hcs, ht, hv⟩ := h
  refine ⟨_, .binary .power t (.number n), hcs.join joins_stars (spells_number n),
    .raise ht (.signed (.power (.number n))), fun r => ?_⟩
  exact ((hv r).pow _).trans (power_keepsValue r _ _)

theorem plus (h : Shows .sum cs x) (hy : Shows .term ds y) :
    Shows .sum (cs ++ [' ', '+', ' '] ++ ds) (add [x, y]) := by
  obtain ⟨ts, t, hcs, ht, hv⟩ := h
  obtain ⟨us, u, hds, hu, hw⟩ := hy
  have hjoin : Joins [' ', '+', ' '] Token.plus := joins_spaced rfl (by decide) (by decide)
  have hop : Operator.plus.isAdditive = true := rfl
  refine ⟨_, .binary .plus t u, hcs.join hjoin hds, .add hop ht hu, fun r => ?_⟩
  exact (KeepsValue.add_cons (hv r) (.add_cons (hw r) (.refl r _))).trans (sum_keepsValue r _)

theorem minus (h : Shows .sum cs x) (hy : Shows .term ds y) :
    Shows .sum (cs ++ [' ', '-', ' '] ++ ds) (add [x, mul [rat (-1), y]]) := by
  obtain ⟨ts, t, hcs, ht, hv⟩ := h
  obtain ⟨us, u, hds, hu, hw⟩ := hy
  have hjoin : Joins [' ', '-', ' '] Token.minus := joins_spaced rfl (by decide) (by decide)
  have hop : Operator.minus.isAdditive = true := rfl
  refine ⟨_, .binary .minus t u, hcs.join hjoin hds, .add hop ht hu, fun r => ?_⟩
  have hneg : KeepsValue r (mul [rat (-1), y]) (-u.value) :=
    (KeepsValue.mul_cons (.refl r _) (.mul_cons (hw r) (.refl r _))).trans (product_keepsValue r _)
  exact (KeepsValue.add_cons (hv r) (.add_cons hneg (.refl r _))).trans (sum_keepsValue r _)

end Shows

/-! ## Reading back -/

/-- A text that shows a value is read back, unless too much is pending on the way. -/
theorem Shows.read {s : String} {x : Expr} (h : Shows .sum s.toList x) :
    Expr.read s = .error (.tooDeep maxPending) ∨
      ∃ y, Expr.read s = .ok y ∧ ∀ r : Reading, KeepsValue r x y := by
  obtain ⟨ts, t, hcs, ht, hv⟩ := h
  obtain ⟨u, us, rfl⟩ := List.exists_cons_of_ne_nil ht.ne_nil
  rw [Expr.read, tokenize, hcs.scan_eq]
  dsimp only
  rcases ofInfix_formula ht with hdeep | hlisting
  · rw [hdeep]
    exact .inl rfl
  · rw [hlisting]
    exact .inr ⟨t.value, toExpr_listing t, hv⟩

end Expr

end SymbolicSolver
