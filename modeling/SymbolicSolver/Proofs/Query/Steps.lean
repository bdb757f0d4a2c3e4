import Mathlib.Data.List.Chain
import Mathlib.Data.List.Forall2
import SymbolicSolver.Proofs.Query.CleanText

/-!
# What the steps of a pass establish

Renaming the logarithm leaves no `ln(`, marking leaves every `e` marked as it should be, and writing the products
leaves none unwritten. The steps that come later, and the removal of filler words in particular, keep what the earlier
ones have established.
-/

namespace SymbolicSolver.Query

open Text (isWordChar isDecimalDigit lowerChar)
open Token (isLetter)

/-! ## The other name of the logarithm -/

/-- No place of the text begins with `ln(`. -/
def LogFree (cs : List Char) : Prop := ¬ ['l', 'n', '('] <:+: cs

theorem logFree_cons {c : Char} {cs : List Char} :
    LogFree (c :: cs) ↔ ¬ (c = 'l' ∧ ['n', '('] <+: cs) ∧ LogFree cs := by
  rw [LogFree, List.infix_cons_iff, List.cons_prefix_cons, not_or, eq_comm]
  rfl

theorem renameLog_of_logFree {cs : List Char} (h : LogFree cs) : renameLog cs = cs := by
  fun_induction renameLog cs with
  | case1 cs => exact absurd ⟨[], cs, rfl⟩ h
  | case2 c cs _ ih => rw [ih (logFree_cons.1 h).2]
  | case3 => rfl

/-- Renaming changes an `l` into an `l` and leaves other characters at the start of a text alone. -/
theorem renameLog_starts {c : Char} {u cs : List Char} (hc : c ≠ 'l')
    (h : c :: u <+: renameLog cs) : ∃ ds, cs = c :: ds ∧ u <+: renameLog ds := by
  fun_cases renameLog cs with
  | case1 ds =>
    rw [renameLog, List.cons_prefix_cons] at h
    exact absurd h.1 hc
  | case2 d ds _ =>
    rw [renameLog, List.cons_prefix_cons] at h
    · obtain ⟨rfl, h⟩ := h
      exact ⟨ds, rfl, h⟩
    · assumption
  | case3 => simp [renameLog] at h

theorem logFree_renameLog (cs : List Char) : LogFree (renameLog cs) := by
  fun_induction renameLog cs with
  | case1 cs ih => simpa [logFree_cons] using ih
  | case2 c cs hln ih =>
    refine logFree_cons.2 ⟨?_, ih⟩
    rintro ⟨rfl, hpre⟩
    obtain ⟨ds, rfl, hparen⟩ := renameLog_starts (by decide) hpre
    obtain ⟨es, rfl, -⟩ := renameLog_starts (by decide) hparen
    exact hln es rfl rfl
  | case3 => exact fun h => by simp at h

/-- Two characters that are the same but for the marking of the letter `e`. -/
def SameButEuler (c d : Char) : Prop := c = d ∨ (c ∈ ['e', 'E'] ∧ d ∈ ['e', 'E'])

theorem prefix_of_sameButEuler {u cs ds : List Char} (h : List.Forall₂ SameButEuler cs ds)
    (hu : ∀ c ∈ u, c ∉ ['e', 'E']) (hpre : u <+: ds) : u <+: cs := by
  induction h generalizing u with
  | nil => exact hpre
  | cons hcd _ ih =>
    cases u with
    | nil => exact List.nil_prefix
    | cons c u =>
      obtain ⟨hc, hrest⟩ := List.forall_mem_cons.1 hu
      obtain ⟨rfl, htail⟩ := List.cons_prefix_cons.1 hpre
      rcases hcd with rfl | ⟨-, hd⟩
      · exact List.cons_prefix_cons.2 ⟨rfl, ih hrest htail⟩
      · exact absurd hd hc

theorem LogFree.sameButEuler {cs ds : List Char} (h : LogFree cs)
    (hsame : List.Forall₂ SameButEuler cs ds) : LogFree ds := by
  induction hsame with
  | nil => exact h
  | @cons c d cs ds hcd hsame ih =>
    obtain ⟨hhead, htail⟩ := logFree_cons.1 h
    refine logFree_cons.2 ⟨?_, ih htail⟩
    rintro ⟨rfl, hpre⟩
    -- Neither `l` nor what follows it is the letter `e`.
    rcases hcd with rfl | ⟨-, hd⟩
    · exact hhead ⟨rfl, prefix_of_sameButEuler hsame (by simp) hpre⟩
    · exact absurd hd (by decide)

theorem sameButEuler_markEuler (inWord : Bool) (cs : List Char) :
    List.Forall₂ SameButEuler cs (markEuler inWord cs) := by
  induction cs generalizing inWord with
  | nil => exact .nil
  | cons c cs ih =>
    rw [markEuler]
    refine .cons ?_ (ih _)
    split
    · rename_i h
      simp only [Bool.and_eq_true, decide_eq_true_eq] at h
      exact .inr ⟨by simp [h.1.1], by decide⟩
    · exact .inl rfl

theorem sameButEuler_lower {cs : List Char} (h : ∀ c ∈ cs, CleanChar c) :
    List.Forall₂ SameButEuler cs (cs.map lowerChar) := by
  induction cs with
  | nil => exact .nil
  | cons c cs ih =>
    obtain ⟨hc, hcs⟩ := List.forall_mem_cons.1 h
    refine .cons ?_ (ih hcs)
    rcases hc.lowered with hlow | rfl
    · exact .inl hlow.1.symm
    · exact .inr ⟨by decide, by decide⟩

theorem LogFree.drops {inWord : Bool} {cs ds : List Char} (h : LogFree cs)
    (hdrop : Drops inWord cs ds) : LogFree ds := by
  induction hdrop with
  | nil => exact h
  | @keep _ c cs ds _ hdrop ih =>
    obtain ⟨hhead, htail⟩ := logFree_cons.1 h
    refine logFree_cons.2 ⟨?_, ih htail⟩
    rintro ⟨rfl, rest, rfl⟩
    have hword : isWordChar 'l' = true ∧ isWordChar 'n' = true := by decide
    rw [hword.1] at hdrop
    -- The `l` and the `n` belong to a word, so the parenthesis was next to them before.
    obtain ⟨rest', rfl, hparen⟩ := hdrop.word_eq (u := ['n']) rfl (by simp [hword.2])
    cases rest' with
    | nil => simp at hparen
    | cons d rest' =>
      obtain rfl : d = '(' := by simpa using hparen
      exact hhead ⟨rfl, rest', rfl⟩
  | drop hfiller _ ih =>
    obtain ⟨w, -, rfl, -⟩ := hfiller
    exact ih fun hoccurs => h (hoccurs.trans (List.suffix_append _ _).isInfix)

/-- Multiplication signs apart, the text begins as before. -/
theorem writeProducts_starts {c : Char} {u cs : List Char} (h : c :: u <+: writeProducts meetsFactor cs) :
    ∃ ds, cs = c :: ds ∧ (u <+: writeProducts meetsFactor ds ∨ u <+: '*' :: writeProducts meetsFactor ds) := by
  cases cs with
  | nil => simp [writeProducts] at h
  | cons d ds =>
    rw [writeProducts] at h
    split at h
    · obtain ⟨rfl, htail⟩ := List.cons_prefix_cons.1 h
      exact ⟨ds, rfl, .inr htail⟩
    · obtain ⟨rfl, htail⟩ := List.cons_prefix_cons.1 h
      exact ⟨ds, rfl, .inl htail⟩

theorem LogFree.writeProducts {cs : List Char} (h : LogFree cs) : LogFree (writeProducts meetsFactor cs) := by
  induction cs with
  | nil => exact h
  | cons c cs ih =>
    obtain ⟨hhead, htail⟩ := logFree_cons.1 h
    have hstart : ¬ (c = 'l' ∧ ['n', '('] <+: Query.writeProducts meetsFactor cs) := by
      rintro ⟨rfl, hpre⟩
      obtain ⟨ds, rfl, hparen | hstar⟩ := writeProducts_starts hpre
      · obtain ⟨es, rfl, -⟩ := writeProducts_starts hparen
        exact hhead ⟨rfl, es, rfl⟩
      · simp at hstar
    rw [Query.writeProducts]
    split
    · refine logFree_cons.2 ⟨by simp, logFree_cons.2 ⟨by simp, ih htail⟩⟩
    · exact logFree_cons.2 ⟨hstart, ih htail⟩

/-! ## The constant `E` -/

/-- Every `e` is marked if and only if it is a word of its own among letters. -/
def Marked (inWord : Bool) : List Char → Prop
  | [] => True
  | c :: cs =>
    (c ∈ ['e', 'E'] → (c = 'E' ↔ inWord = false ∧ cs.head?.any isLetter = false)) ∧
      Marked (isLetter c) cs

theorem isLetter_euler {c : Char} (h : c ∈ ['e', 'E']) : isLetter c = true := by
  rcases List.mem_cons.1 h with rfl | h
  · decide
  · rw [List.mem_singleton.1 h]
    decide

theorem head?_markEuler (inWord : Bool) (cs : List Char) :
    (markEuler inWord cs).head?.any isLetter = cs.head?.any isLetter := by
  cases cs with
  | nil => rfl
  | cons c cs =>
    simp only [markEuler, List.head?_cons, Option.any_some]
    split
    · rename_i h
      simp only [Bool.and_eq_true, decide_eq_true_eq] at h
      rw [h.1.1]
      decide
    · rfl

theorem marked_markEuler {inWord : Bool} {cs : List Char} (h : 'E' ∉ cs) :
    Marked inWord (markEuler inWord cs) := by
  induction cs generalizing inWord with
  | nil => trivial
  | cons c cs ih =>
    rw [List.mem_cons, not_or] at h
    have hhead := head?_markEuler (isLetter c) cs
    rw [markEuler]
    split
    · rename_i halone
      simp only [Bool.and_eq_true, decide_eq_true_eq, Bool.not_eq_true'] at halone
      obtain ⟨⟨rfl, hbefore⟩, hafter⟩ := halone
      exact ⟨fun _ => iff_of_true rfl ⟨hbefore, hhead.trans hafter⟩, ih h.2⟩
    · rename_i halone
      refine ⟨fun hc => ?_, ih h.2⟩
      rw [hhead]
      obtain rfl : c = 'e' := by simpa [Ne.symm h.1] using hc
      simpa using halone

theorem CleanChar.isLetter_lowerChar {c : Char} (h : CleanChar c) :
    isLetter (lowerChar c) = isLetter c := by
  rcases h.lowered with hlow | rfl
  · rw [hlow.1]
  · decide

/-- A marked `e` is written again as it stands; `after` says whether a letter follows. -/
theorem CleanChar.mark_lowerChar {c : Char} (h : CleanChar c) {inWord after : Bool}
    (hmark : c ∈ ['e', 'E'] → (c = 'E' ↔ inWord = false ∧ after = false)) :
    (if lowerChar c = 'e' && !inWord && !after then 'E' else lowerChar c) = c := by
  by_cases he : c ∈ ['e', 'E']
  · have hlow : lowerChar c = 'e' := by
      rcases List.mem_cons.1 he with rfl | he
      · decide
      · rw [List.mem_singleton.1 he]
        decide
    rw [hlow]
    by_cases hE : c = 'E'
    · obtain ⟨hbefore, hafter⟩ := (hmark he).1 hE
      simp [hbefore, hafter, hE]
    · have halone : ¬ (inWord = false ∧ after = false) := fun h => hE ((hmark he).2 h)
      rw [if_neg (by simpa using halone)]
      simpa [hE, eq_comm] using he
  · have hlow : lowerChar c = c := by
      rcases h.lowered with hlow | rfl
      · exact hlow.1
      · exact absurd (by decide) he
    rw [hlow, if_neg]
    intro hcond
    simp only [Bool.and_eq_true, decide_eq_true_eq] at hcond
    exact he (by simp [hcond.1.1])

/-- Marking the lower-case form of a marked text gives the text back. -/
theorem markEuler_lower {inWord : Bool} {cs : List Char} (hclean : ∀ c ∈ cs, CleanChar c)
    (h : Marked inWord cs) : markEuler inWord (cs.map lowerChar) = cs := by
  induction cs generalizing inWord with
  | nil => rfl
  | cons c cs ih =>
    obtain ⟨hc, hcs⟩ := List.forall_mem_cons.1 hclean
    have hhead : (cs.map lowerChar).head?.any isLetter = cs.head?.any isLetter := by
      cases cs with
      | nil => rfl
      | cons d ds => exact (hcs d List.mem_cons_self).isLetter_lowerChar
    rw [List.map_cons, markEuler, hc.isLetter_lowerChar, ih hcs h.2, hhead, hc.mark_lowerChar h.1]

/-- What stands before matters only to a text that begins with the letter `e`. -/
theorem Marked.of_head {a b : Bool} {cs : List Char} (h : Marked a cs)
    (hhead : cs.head?.any isWordChar = false) : Marked b cs := by
  cases cs with
  | nil => trivial
  | cons c cs =>
    refine ⟨fun hc => ?_, h.2⟩
    simp [isWordChar_of_isLetter (isLetter_euler hc)] at hhead

theorem Marked.suffix {a : Bool} {xs ys : List Char} (h : Marked a (xs ++ ys)) :
    ∃ b, Marked b ys := by
  induction xs generalizing a with
  | nil => exact ⟨a, h⟩
  | cons x xs ih => exact ih h.2

theorem Drops.head? {cs ds : List Char} (h : Drops true cs ds) : ds.head? = cs.head? := by
  obtain ⟨rest', rfl, hhead⟩ := h.word_eq (u := []) rfl (by simp)
  exact hhead.symm

theorem Marked.drops {inWord : Bool} {cs ds : List Char} (hdrop : Drops inWord cs ds) {a : Bool}
    (ha : a = true → inWord = true) (h : Marked a cs) : Marked a ds := by
  induction hdrop generalizing a with
  | nil => trivial
  | @keep _ c cs ds _ hdrop ih =>
    refine ⟨fun hc => ?_, ih isWordChar_of_isLetter h.2⟩
    rw [isWordChar_of_isLetter (isLetter_euler hc)] at hdrop
    rw [hdrop.head?]
    exact h.1 hc
  | drop hfiller _ ih =>
    obtain ⟨w, -, rfl, hend⟩ := hfiller
    -- No word character follows a filler word, so what stood before it does not matter any more.
    obtain ⟨b, hb⟩ := h.suffix
    exact ih (fun _ => rfl) (hb.of_head hend)

/-! ## Multiplication signs -/

/-- No product is left unwritten. -/
def Spaced (cs : List Char) : Prop := cs.IsChain fun c d => meetsFactor c d = false

theorem spaced_cons {c : Char} {cs : List Char} :
    Spaced (c :: cs) ↔ cs.head?.any (meetsFactor c) = false ∧ Spaced cs := by
  cases cs <;> simp [Spaced]

theorem meetsFactor_star (d : Char) : meetsFactor '*' d = false := by
  have hdigit : isDecimalDigit '*' = false := by decide
  simp [meetsFactor, hdigit]

theorem spaced_writeProducts (cs : List Char) : Spaced (writeProducts meetsFactor cs) := by
  induction cs with
  | nil => exact .nil
  | cons c cs ih =>
    rw [writeProducts]
    split
    · refine spaced_cons.2 ⟨?_, spaced_cons.2 ⟨?_, ih⟩⟩
      · have hletter : isLetter '*' = false := by decide
        simp [meetsFactor, hletter]
      · cases (writeProducts meetsFactor cs).head? <;> simp [meetsFactor_star]
    · rename_i h
      exact spaced_cons.2 ⟨by simpa [head?_writeProducts] using h, ih⟩

theorem writeProducts_of_spaced {cs : List Char} (h : Spaced cs) : writeProducts meetsFactor cs = cs := by
  induction cs with
  | nil => rfl
  | cons c cs ih =>
    obtain ⟨hhead, htail⟩ := spaced_cons.1 h
    rw [writeProducts, if_neg (by simp [hhead]), ih htail]

theorem Marked.writeProducts {a : Bool} {cs : List Char} (h : Marked a cs) :
    Marked a (writeProducts meetsFactor cs) := by
  induction cs generalizing a with
  | nil => trivial
  | cons c cs ih =>
    rw [Query.writeProducts]
    split
    · rename_i hmeets
      obtain ⟨d, -, hd⟩ := (Option.any_eq_true _ _).1 hmeets
      have hc := meetsFactor_not_letter hd
      have hrest := h.2
      rw [hc] at hrest
      refine ⟨fun he => ?_, fun he => ?_, ih hrest⟩
      · rw [isLetter_euler he] at hc
        exact absurd hc (by decide)
      · exact absurd he (by decide)
    · refine ⟨fun hc => ?_, ih h.2⟩
      rw [head?_writeProducts]
      exact h.1 hc

/-- Removing a filler word brings no factors together: before it stands neither a digit nor a parenthesis that
closes, or the product with its first letter would be unwritten. -/
theorem Spaced.drops {inWord : Bool} {cs ds : List Char} (hdrop : Drops inWord cs ds) (p : Char)
    (h : Spaced (p :: cs)) : Spaced (p :: ds) := by
  induction hdrop generalizing p with
  | nil => exact h
  | @keep _ c cs ds _ _ ih =>
    obtain ⟨hhead, htail⟩ := spaced_cons.1 h
    exact spaced_cons.2 ⟨hhead, ih c htail⟩
  | @drop cs rest ds hfiller _ ih =>
    obtain ⟨hhead, htail⟩ := spaced_cons.1 h
    have hfree (d : Char) : meetsFactor p d = false := by
      obtain ⟨e, he, hletter⟩ := (Option.any_eq_true _ _).1 hfiller.head
      rw [he, Option.any_some] at hhead
      simp only [meetsFactor, hletter, Bool.true_or, Bool.and_true] at hhead
      simp [meetsFactor, hhead]
    have hrest : Spaced (p :: rest) := by
      refine spaced_cons.2 ⟨by cases rest.head? <;> simp [hfree], ?_⟩
      obtain ⟨w, -, rfl, -⟩ := hfiller
      exact (List.isChain_append.1 htail).2.1
    exact ih p hrest

end SymbolicSolver.Query
