import SymbolicSolver.Proofs.Query.Steps

/-!
# The normal form is settled

Repeating the pass reaches a text that it no longer changes, whatever the text it started from. After one pass all
characters are clean; after two there is no `ln(`, every lone `e` is marked and every product is written out, and
only filler words that a new multiplication sign has cut loose can be left. The third pass removes these and gives the
other steps nothing to do, so a fourth pass changes nothing.
-/

namespace SymbolicSolver.Query

open Text (isBlank isDecimalDigit lowerChar caseless)
open Token (isLetter)

/-- A text to which a pass has nothing to do but to remove filler words. -/
structure Tame (cs : List Char) : Prop where
  clean : ∀ c ∈ cs, CleanChar c
  logFree : LogFree cs
  marked : Marked false cs
  spaced : Spaced cs

/-- The second pass writes out what the first one has uncovered. -/
theorem tame_pass {cs : List Char} (h : ∀ c ∈ cs, CleanChar c) : Tame (pass cs) := by
  refine ⟨fun c => clean_of_mem_pass, ?_, ?_, ?_⟩
  · rw [pass_of_clean h]
    exact (((logFree_renameLog _).sameButEuler (sameButEuler_markEuler false _)).drops
      (drops_dropFillers false _)).writeProducts
  · rw [pass_of_clean h]
    refine ((marked_markEuler fun hE => ?_).drops (drops_dropFillers false _) id).writeProducts
    rcases mem_renameLog hE with hE | hE
    · exact absurd hE (by decide)
    · obtain ⟨c, hc, heq⟩ := List.mem_map.1 hE
      have hlow := (h c hc).lowerChar_clean.2
      rw [heq] at hlow
      exact absurd hlow (by decide)
  · rw [pass_of_clean h]
    exact spaced_writeProducts _

/-- On a tame text a pass removes filler words, and leaves a tame text. -/
theorem Tame.pass_eq {cs : List Char} (h : Tame cs) :
    pass cs = dropFillers false cs ∧ Tame (dropFillers false cs) := by
  have hdrop := drops_dropFillers false cs
  have hspaced : Spaced (dropFillers false cs) := by
    have hstart : cs.head?.any (meetsFactor '*') = false := by
      cases cs.head? <;> simp [meetsFactor_star]
    exact (spaced_cons.1 (Spaced.drops hdrop '*' (spaced_cons.2 ⟨hstart, h.spaced⟩))).2
  have hlog : LogFree (cs.map lowerChar) := h.logFree.sameButEuler (sameButEuler_lower h.clean)
  refine ⟨?_, fun c hc => h.clean c (hdrop.subset c hc), h.logFree.drops hdrop,
    h.marked.drops hdrop id, hspaced⟩
  rw [pass_of_clean h.clean, renameLog_of_logFree hlog, markEuler_lower h.clean h.marked,
    writeProducts_of_spaced hspaced]

/-- After three passes a further one changes nothing. -/
theorem pass_settled (cs : List Char) : pass (pass (pass (pass cs))) = pass (pass (pass cs)) := by
  have htame : Tame (pass (pass cs)) := tame_pass fun c => clean_of_mem_pass
  obtain ⟨hpass, hnext⟩ := htame.pass_eq
  rw [hpass, hnext.pass_eq.1]
  exact (drops_dropFillers false _).dropFillers_eq fun c hc => (htame.clean c hc).notBlank

/-- The repetition stops at the first text that a pass leaves alone. -/
theorem settle_eq {k n : Nat} {cs : List Char} (hk : k ≤ n)
    (hfixed : pass (pass^[k] cs) = pass^[k] cs) : settle n cs = pass^[k] cs := by
  induction n generalizing k cs with
  | zero =>
    obtain rfl := Nat.le_zero.1 hk
    rfl
  | succ n ih =>
    rw [settle]
    split
    · rename_i hstop
      exact (Function.iterate_fixed hstop k).symm
    · rename_i hgo
      cases k with
      | zero => exact absurd hfixed hgo
      | succ k => exact ih (Nat.le_of_succ_le_succ hk) hfixed

/-- The normal form is what three passes make of a text. -/
theorem normalChars_eq (cs : List Char) : normalChars cs = pass (pass (pass cs)) :=
  settle_eq (k := 2) (by decide) (pass_settled cs)

theorem tame_normalChars (cs : List Char) : Tame (normalChars cs) := by
  rw [normalChars_eq]
  exact tame_pass fun c => clean_of_mem_pass

/-- The normal form of every text is a fixed point of the pass and its own normal form. It holds no blank, no
circumflex and no typographic dash, and no digit or closing parenthesis stands immediately before a letter or an
opening parenthesis. -/
theorem normalForm_settled (s : String) :
    pass (normalForm s).toList = (normalForm s).toList ∧
    normalForm (normalForm s) = normalForm s ∧
    (∀ c ∈ (normalForm s).toList, isBlank c = false ∧ c ≠ '^' ∧ c ≠ '−' ∧ c ≠ '–') ∧
    ∀ before c d after, (normalForm s).toList = before ++ c :: d :: after →
      (isDecimalDigit c = true ∨ c = ')') → isLetter d = false ∧ d ≠ '(' := by
  have hlist : (normalForm s).toList = normalChars s.toList := String.toList_ofList
  have hfixed : pass (normalChars s.toList) = normalChars s.toList := by
    rw [normalChars_eq, pass_settled]
  have htame := tame_normalChars s.toList
  rw [hlist]
  refine ⟨hfixed, ?_, fun c hc => ?_, fun before c d after heq hc => ?_⟩
  · rw [normalForm, hlist, normalForm, normalChars, hfixed]
    exact congrArg String.ofList (settle_eq (k := 0) (Nat.zero_le _) hfixed)
  · have hclean := htame.clean c hc
    have hcase := hclean.notCaseless
    simp only [caseless, List.mem_cons, not_or] at hcase
    exact ⟨hclean.notBlank, hcase.1, hcase.2.1, hcase.2.2.1⟩
  · have hmeets := List.isChain_iff_forall_rel_of_append_cons_cons.1 htame.spaced heq
    have hfirst : (isDecimalDigit c || c = ')') = true := by simpa using hc
    simpa [meetsFactor, hfirst] using hmeets

end SymbolicSolver.Query
