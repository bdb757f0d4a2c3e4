import SymbolicSolver.Postfix
import SymbolicSolver.Proofs.Canonical.Hereditary
import SymbolicSolver.Proofs.Printer.Basic
import SymbolicSolver.Proofs.Printer.Spelling
import SymbolicSolver.Proofs.Query.WordedPass

/-!
# Texts of expressions as queries

The text of an expression whose variables are single letters other than `a` and `e` is put together from words and
marks, so its normal form is known: the text without blanks and with a small `i` for every `I`. A text without the
imaginary unit is therefore its own query, and its normal form is cut into the same tokens. The imaginary unit itself
is not restored as the constant `E` is: its normal form is the name of a variable.
-/

namespace SymbolicSolver

namespace Query

open Token (isLetter isDigit scan)
open Text (isBlank)

/-! ## Tokens -/

theorem mem_digits {c : Char} (h : isDigit c = true) : c ∈ digits := by
  have hall : ∀ n < 128, isDigit (Char.ofNat n) = true → Char.ofNat n ∈ digits := by decide
  have hcode : c.toNat < 128 := by
    simp only [isDigit, Bool.and_eq_true, decide_eq_true_eq] at h
    exact Nat.lt_of_le_of_lt h.2 (by decide)
  exact Text.forall_ascii (P := fun c => isDigit c = true → c ∈ digits) hall hcode h

end Query

open Query

namespace Expr

variable {text : Expr → String}

theorem written_inParens {s : String} (h : Written s.toList) : Written (inParens s).toList := by
  rw [inParens, String.toList_append, String.toList_append, List.append_assoc]
  exact h.paren

theorem written_factor {x : Expr} (h : Written (text x).toList) : Written (factorText text x).toList := by
  unfold factorText
  split
  · exact written_inParens h
  · exact h

theorem written_operand {x : Expr} (h : Written (text x).toList) : Written (operandText text x).toList := by
  unfold operandText
  split
  · exact h
  · exact written_inParens h

theorem written_call {f s : String} (hf : f.toList ∈ vocabulary) (h : Written s.toList) :
    Written (f ++ inParens s).toList := by
  rw [String.toList_append, inParens, String.toList_append, String.toList_append, List.append_assoc]
  exact .call hf h

theorem written_join {s t op : String} (h : Written s.toList) (hop : op.toList ∈ operators)
    (ht : Written t.toList) : Written (s ++ op ++ t).toList := by
  rw [String.toList_append, String.toList_append]
  exact h.join hop ht

theorem written_number (n : Nat) : Written (toString n).toList := by
  rw [Nat.toString_eq_repr, Nat.toList_repr]
  exact written_word (.inr ⟨Nat.toDigits_ne_nil, fun d hd => mem_digits (Token.isDigit_of_mem_toDigits hd)⟩)

theorem written_plainPower {b x : Expr} (hb : Written (text b).toList) (hx : Written (text x).toList) :
    Written (plainPowerText text b x).toList := by
  unfold plainPowerText
  split
  · exact written_call (by decide) hb
  · split
    · exact written_call (by decide) hx
    · exact written_join (written_operand hb) (by decide) (written_operand hx)

/-- A name of one lower-case letter other than `a` and `e`. -/
def IsPlainName (s : String) : Prop := ∃ c ∈ plainLetters, s = String.ofList [c]

/-- Texts above and below a fraction bar. -/
structure WrittenFraction (t : FractionText) : Prop where
  above : ∀ s ∈ t.above, Written s.toList
  below : ∀ s ∈ t.below, Written s.toList

section Levels

variable (htext : ∀ x, VarsIn IsPlainName x → Written (text x).toList)

include htext

theorem WrittenFraction.insert {t : FractionText} (h : WrittenFraction t) {x : Expr} (hx : VarsIn IsPlainName x) :
    WrittenFraction (t.insert text x) := by
  have habove {s : String} (hs : Written s.toList) : ∀ u ∈ t.above ++ [s], Written u.toList :=
    List.forall_mem_append.2 ⟨h.above, by simpa using hs⟩
  have hbelow {s : String} (hs : Written s.toList) : ∀ u ∈ t.below ++ [s], Written u.toList :=
    List.forall_mem_append.2 ⟨h.below, by simpa using hs⟩
  unfold FractionText.insert
  split
  · refine ⟨?_, ?_⟩
    · dsimp only
      split
      · exact h.above
      · exact habove (written_number _)
    · dsimp only
      split
      · exact h.below
      · exact hbelow (written_number _)
  · have hb := htext _ hx.1
    split
    · exact ⟨h.above, hbelow (written_factor hb)⟩
    · split
      · exact ⟨h.above, hbelow (written_plainPower hb (htext _ trivial))⟩
      · exact ⟨habove (htext _ hx), h.below⟩
  · exact ⟨habove (written_factor (htext _ hx)), h.below⟩

theorem WrittenFraction.foldl {fs : List Expr} (hfs : ∀ f ∈ fs, VarsIn IsPlainName f) {t : FractionText}
    (h : WrittenFraction t) : WrittenFraction (fs.foldl (FractionText.insert text) t) := by
  induction fs generalizing t with
  | nil => exact h
  | cons f fs ih =>
    obtain ⟨hf, hfs⟩ := List.forall_mem_cons.1 hfs
    exact ih hfs (h.insert htext hf)

end Levels

end Expr

end SymbolicSolver
