import Mathlib.Data.List.Basic
import SymbolicSolver.Proofs.Query.TaggedNames
import SymbolicSolver.Proofs.Text.Lowercase

/-!
# Clean texts

A pass leaves characters that the steps on single characters have nothing to do with: no blanks, dashes or
circumflexes, and capitals only where the constant `E` is marked. On a text of such characters a pass is its four
middle steps.
-/

namespace SymbolicSolver.Query

open Text (isBlank lower lowerChar caseless Lowered)

/-- A character that the steps on single characters leave alone, a marked `E` apart. -/
structure CleanChar (c : Char) : Prop where
  notBlank : isBlank c = false
  notCaseless : c ∉ caseless
  lowered : Lowered c ∨ c = 'E'

theorem mem_plainChar {c d : Char} (h : c ∈ plainChar d) : c = '-' ∨ c = '*' ∨
    (c = d ∧ c ≠ '−' ∧ c ≠ '–' ∧ c ≠ '^') := by
  unfold plainChar at h
  split at h
  · exact .inl (List.mem_singleton.1 h)
  · split at h
    · exact .inr (.inl (by simpa using h))
    · rename_i hdash hcaret
      obtain rfl := List.mem_singleton.1 h
      exact .inr (.inr ⟨rfl, fun h => hdash (.inl h), fun h => hdash (.inr h), hcaret⟩)

theorem mem_renameLog {c : Char} {cs : List Char} (h : c ∈ renameLog cs) :
    c ∈ ['l', 'o', 'g', '('] ∨ c ∈ cs := by
  fun_induction renameLog cs with
  | case1 cs ih =>
    simp only [List.mem_cons] at h ⊢
    rcases h with h | h | h | h | h
    · exact .inl (.inl h)
    · exact .inl (.inr (.inl h))
    · exact .inl (.inr (.inr (.inl h)))
    · exact .inl (.inr (.inr (.inr (.inl h))))
    · rcases ih h with hl | hm
      · exact .inl (by simpa using hl)
      · exact .inr (.inr (.inr (.inr hm)))
  | case2 d cs _ ih =>
    rcases List.mem_cons.1 h with rfl | h
    · exact .inr List.mem_cons_self
    · exact (ih h).imp_right (List.mem_cons_of_mem d)
  | case3 => simp at h

theorem mem_markEuler {inWord : Bool} {c : Char} {cs : List Char} (h : c ∈ markEuler inWord cs) :
    c = 'E' ∨ c ∈ cs := by
  induction cs generalizing inWord with
  | nil => simp [markEuler] at h
  | cons d ds ih =>
    rw [markEuler] at h
    rcases List.mem_cons.1 h with rfl | h
    · split
      · exact .inl rfl
      · exact .inr List.mem_cons_self
    · exact (ih h).imp_right (List.mem_cons_of_mem d)

theorem mem_writeProducts {c : Char} {cs : List Char} (h : c ∈ writeProducts meetsFactor cs) :
    c = '*' ∨ c ∈ cs := by
  induction cs with
  | nil => simp [writeProducts] at h
  | cons d ds ih =>
    rw [writeProducts] at h
    split at h
    · rcases List.mem_cons.1 h with rfl | h
      · exact .inr List.mem_cons_self
      · rcases List.mem_cons.1 h with rfl | h
        · exact .inl rfl
        · exact (ih h).imp_right (List.mem_cons_of_mem d)
    · rcases List.mem_cons.1 h with rfl | h
      · exact .inr List.mem_cons_self
      · exact (ih h).imp_right (List.mem_cons_of_mem d)

/-- The characters that a pass writes on its own. -/
theorem written_clean : ['l', 'o', 'g', '(', 'E', '*', '-'].all (fun c =>
    decide (isBlank c = false ∧ c ∉ caseless ∧ (Lowered c ∨ c = 'E'))) = true := by
  decide +kernel

theorem CleanChar.of_written {c : Char} (h : c ∈ ['l', 'o', 'g', '(', 'E', '*', '-']) :
    CleanChar c := by
  obtain ⟨hblank, hcase, hlow⟩ := of_decide_eq_true (List.all_eq_true.1 written_clean c h)
  exact ⟨hblank, hcase, hlow⟩

/-- A pass without the tags, which a text in lower case does not hold of its own. -/
theorem pass_eq (cs : List Char) : pass cs =
    (writeProducts meetsFactor (dropFillers false (markEuler false (renameLog
      (lower ((Text.trim cs).flatMap plainChar)))))).filter fun c => !isBlank c := by
  refine untagNames_tagNames fun hF => ?_
  rcases mem_markEuler hF with hF | hF
  · exact absurd hF (by decide)
  rcases mem_renameLog hF with hF | hF
  · exact absurd hF (by decide)
  · exact absurd (Text.lowered_of_mem_lower hF).1 (by decide)

/-- A pass leaves clean characters only. -/
theorem clean_of_mem_pass {cs : List Char} {c : Char} (h : c ∈ pass cs) : CleanChar c := by
  rw [pass_eq] at h
  obtain ⟨h, hblank⟩ := List.mem_filter.1 h
  rcases mem_writeProducts h with rfl | h
  · exact .of_written (by decide)
  rcases mem_markEuler ((drops_dropFillers _ _).subset c h) with rfl | h
  · exact .of_written (by decide)
  rcases mem_renameLog h with h | h
  · exact .of_written (List.mem_append_left ['E', '*', '-'] h)
  obtain ⟨hlow, hcase⟩ := Text.lowered_of_mem_lower h
  refine ⟨by simpa using hblank, fun hc => ?_, .inl hlow⟩
  obtain ⟨d, -, hd⟩ := List.mem_flatMap.1 (hcase hc)
  rcases mem_plainChar hd with rfl | rfl | ⟨rfl, h1, h2, h3⟩
  · exact absurd hc (by decide)
  · exact absurd hc (by decide)
  · simp [caseless, h1, h2, h3, hlow.2] at hc

theorem trim_eq_self {cs : List Char} (h : ∀ c ∈ cs, isBlank c = false) : Text.trim cs = cs := by
  have hstart {ds : List Char} (hds : ∀ c ∈ ds, isBlank c = false) : ds.dropWhile isBlank = ds := by
    cases ds with
    | nil => rfl
    | cons c ds => simp [hds c List.mem_cons_self]
  rw [Text.trim, Text.trimEnd, Text.trimStart, hstart h,
    hstart fun c hc => h c (List.mem_reverse.1 hc), List.reverse_reverse]

/-- Plain notation leaves characters alone that are no dash and no circumflex. -/
theorem flatMap_plainChar {cs : List Char} (h : ∀ c ∈ cs, c ∉ caseless) : cs.flatMap plainChar = cs := by
  have hself : cs.flatMap plainChar = cs.flatMap fun c => [c] := by
    refine List.flatMap_congr fun c hc => ?_
    have hc := h c hc
    simp only [caseless, List.mem_cons, not_or] at hc
    rw [plainChar, if_neg (by simp [hc]), if_neg hc.1]
  simpa using hself

theorem CleanChar.lowerChar_clean {c : Char} (h : CleanChar c) :
    isBlank (lowerChar c) = false ∧ Lowered (lowerChar c) := by
  rcases h.lowered with hlow | rfl
  · rw [hlow.1]
    exact ⟨h.notBlank, hlow⟩
  · decide

/-- On clean characters a pass is its four middle steps. -/
theorem pass_of_clean {cs : List Char} (h : ∀ c ∈ cs, CleanChar c) :
    pass cs =
      writeProducts meetsFactor (dropFillers false (markEuler false (renameLog (cs.map lowerChar)))) := by
  have htrim := trim_eq_self fun c hc => (h c hc).notBlank
  have hplain := flatMap_plainChar fun c hc => (h c hc).notCaseless
  have hlower : lower cs = cs.map lowerChar := by
    refine Text.lower_eq_map fun c hc => ?_
    rcases (h c hc).lowered with hlow | rfl
    · exact ⟨hlow.ne_sigma, hlow.2⟩
    · decide
  rw [pass_eq, htrim, hplain, hlower]
  refine List.filter_eq_self.2 fun c hc => ?_
  have hblank : isBlank c = false := by
    rcases mem_writeProducts hc with rfl | hc
    · rfl
    rcases mem_markEuler ((drops_dropFillers _ _).subset c hc) with rfl | hc
    · rfl
    rcases mem_renameLog hc with hc | hc
    · exact (CleanChar.of_written (List.mem_append_left ['E', '*', '-'] hc)).notBlank
    obtain ⟨d, hd, rfl⟩ := List.mem_map.1 hc
    exact (h d hd).lowerChar_clean.1
  rw [hblank]
  rfl

end SymbolicSolver.Query
