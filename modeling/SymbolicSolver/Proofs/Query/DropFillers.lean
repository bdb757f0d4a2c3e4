import SymbolicSolver.Query.NormalForm

/-!
# Removing filler words

What `dropFillers` does to a text as an inductive relation: it keeps a character where no filler word begins, and
leaves out a filler word that stands between characters that belong to no word. Beside a word character nothing is
removed, so the rest of a word stays as it is. In a text without blanks one removal therefore leaves no filler word
behind.
-/

namespace SymbolicSolver.Query

open Text (isBlank isWordChar dropWord? inRanges)
open Token (isLetter)

/-! ## Letters -/

/-- The code points of the letters. -/
theorem isLetter_iff (c : Char) :
    isLetter c = true ↔ (97 ≤ c.toNat ∧ c.toNat ≤ 122) ∨ (65 ≤ c.toNat ∧ c.toNat ≤ 90) := by
  simp only [isLetter, Bool.or_eq_true, Bool.and_eq_true, decide_eq_true_eq]
  rfl

theorem inRanges_here {n first last : Nat} {rs : List (Nat × Nat)} (hfirst : first ≤ n)
    (hlast : n ≤ last) : inRanges n ((first, last) :: rs) = true := by
  rw [inRanges, if_neg (by omega), decide_eq_true hlast, Bool.true_or]

theorem inRanges_later {n first last : Nat} {rs : List (Nat × Nat)} (hfirst : first ≤ n)
    (h : inRanges n rs = true) : inRanges n ((first, last) :: rs) = true := by
  rw [inRanges, if_neg (by omega), h, Bool.or_true]

theorem inRanges_past {n first last : Nat} {rs : List (Nat × Nat)} (hfirst : first ≤ n)
    (hlast : last < n) : inRanges n ((first, last) :: rs) = inRanges n rs := by
  rw [inRanges, if_neg (by omega), decide_eq_false (by omega), Bool.false_or]

theorem inRanges_before {n first last : Nat} {rs : List (Nat × Nat)} (h : n < first) :
    inRanges n ((first, last) :: rs) = false := by
  rw [inRanges, if_pos h]

theorem isWordChar_of_isLetter {c : Char} (h : isLetter c = true) : isWordChar c = true := by
  rcases (isLetter_iff c).1 h with ⟨hlo, hhi⟩ | ⟨hlo, hhi⟩
  · exact inRanges_later (by omega) (inRanges_later (by omega)
      (inRanges_later (by omega) (inRanges_here hlo hhi)))
  · exact inRanges_later (by omega) (inRanges_here hlo hhi)

/-! ## Filler words at the start of a text -/

theorem dropWord?_eq_some {ws cs rest : List Char} : dropWord? ws cs = some rest ↔ cs = ws ++ rest := by
  induction ws generalizing cs with
  | nil => simp [dropWord?]
  | cons w ws ih =>
    cases cs with
    | nil => simp [dropWord?]
    | cons c cs =>
      simp only [dropWord?, List.cons_append, List.cons.injEq]
      split
      · rename_i h
        simp [ih, h]
      · rename_i h
        simp [Ne.symm h]

/-- Filler words begin with a letter, and one without blanks has letters only. -/
theorem fillerWords_letters : ∀ w ∈ fillerWords,
    w.toList.head?.any isLetter = true ∧ (w.toList.any isBlank || w.toList.all isLetter) = true := by
  decide

/-- A filler word at the start of a text that ends where the word does. -/
def FillerBefore (cs rest : List Char) : Prop :=
  ∃ w ∈ fillerWords, cs = w.toList ++ rest ∧ rest.head?.any isWordChar = false

theorem fillerBefore_of_afterFiller? {cs rest : List Char} (h : afterFiller? cs = some rest) :
    FillerBefore cs rest := by
  obtain ⟨w, hw, h⟩ := List.exists_of_findSome?_eq_some h
  obtain ⟨hdrop, hend⟩ := Option.filter_eq_some_iff.1 h
  exact ⟨w, hw, dropWord?_eq_some.1 hdrop, by simpa using hend⟩

theorem afterFiller?_eq_none {cs : List Char} :
    afterFiller? cs = none ↔ ∀ rest, ¬ FillerBefore cs rest := by
  constructor
  · intro h rest ⟨w, hw, hcs, hend⟩
    have hnone := List.findSome?_eq_none_iff.1 h w hw
    rw [dropWord?_eq_some.2 hcs, Option.filter_eq_none_iff] at hnone
    exact hnone rest rfl (by simp [hend])
  · intro h
    cases hf : afterFiller? cs with
    | none => rfl
    | some rest => exact absurd (fillerBefore_of_afterFiller? hf) (h rest)

/-- A filler word begins with a letter. -/
theorem FillerBefore.head {cs rest : List Char} (h : FillerBefore cs rest) :
    cs.head?.any isLetter = true := by
  obtain ⟨w, hw, rfl, -⟩ := h
  have hletter := (fillerWords_letters w hw).1
  cases hl : w.toList with
  | nil => simp [hl] at hletter
  | cons c ws => simpa [hl] using hletter

/-! ## What is removed -/

/-- The second text is the first one without filler words; `inWord` says whether a word character stands before. -/
inductive Drops : Bool → List Char → List Char → Prop
  | nil (inWord : Bool) : Drops inWord [] []
  | keep {inWord : Bool} {c : Char} {cs ds : List Char}
      (hkeep : inWord = true ∨ afterFiller? (c :: cs) = none) (h : Drops (isWordChar c) cs ds) :
      Drops inWord (c :: cs) (c :: ds)
  | drop {cs rest ds : List Char} (hfiller : FillerBefore cs rest) (h : Drops true rest ds) :
      Drops false cs ds

theorem drops_dropFillers (inWord : Bool) (cs : List Char) :
    Drops inWord cs (dropFillers inWord cs) := by
  fun_induction dropFillers inWord cs with
  | case1 inWord => exact .nil inWord
  | case2 inWord c cs rest h ih =>
    cases inWord with
    | true => simp at h
    | false => exact .drop (fillerBefore_of_afterFiller? (by simpa using h)) ih
  | case3 inWord c cs h ih =>
    refine .keep ?_ ih
    cases inWord with
    | true => exact .inl rfl
    | false => exact .inr (by simpa using h)

/-- A character at which no filler word begins stays. -/
theorem dropFillers_keep {inWord : Bool} {c : Char} {cs : List Char}
    (h : inWord = true ∨ afterFiller? (c :: cs) = none) :
    dropFillers inWord (c :: cs) = c :: dropFillers (isWordChar c) cs := by
  rw [dropFillers]
  split
  · rename_i hsome
    rcases h with rfl | h
    · simp at hsome
    · simp [h] at hsome
  · rfl

/-- A filler word at the start of a text goes, unless a word goes on with it. -/
theorem dropFillers_drop {cs rest : List Char} (h : afterFiller? cs = some rest) :
    dropFillers false cs = dropFillers true rest := by
  cases cs with
  | nil => exact absurd (fillerBefore_of_afterFiller? h).head (by simp)
  | cons c cs =>
    rw [dropFillers]
    split
    · rename_i rest' hsome
      rw [show rest' = rest from Option.some.inj (hsome.symm.trans h)]
    · rename_i hnone
      exact absurd (hnone.symm.trans h) (by simp)

/-- The rest of a word stays. -/
theorem dropFillers_word {w : List Char} (hw : ∀ c ∈ w, isWordChar c = true) (rest : List Char) :
    dropFillers true (w ++ rest) = w ++ dropFillers true rest := by
  induction w with
  | nil => rfl
  | cons c w ih =>
    obtain ⟨hc, hw⟩ := List.forall_mem_cons.1 hw
    rw [List.cons_append, dropFillers_keep (.inl rfl), hc, ih hw, List.cons_append]

theorem afterFiller?_of_not_letter {c : Char} (hc : isLetter c = false) (cs : List Char) :
    afterFiller? (c :: cs) = none := by
  refine afterFiller?_eq_none.2 fun rest h => ?_
  have hhead := h.head
  simp [hc] at hhead

namespace Drops

variable {inWord : Bool} {cs ds : List Char}

theorem subset (h : Drops inWord cs ds) : ∀ c ∈ ds, c ∈ cs := by
  induction h with
  | nil => simp
  | keep _ _ ih => exact fun c hc => List.mem_cons.2 ((List.mem_cons.1 hc).imp_right (ih c))
  | drop hfiller _ ih =>
    obtain ⟨w, -, rfl, -⟩ := hfiller
    exact fun c hc => List.mem_append_right _ (ih c hc)

/-- The rest of a word stays, and so does the character after it. -/
theorem word_eq (h : Drops true cs ds) : ∀ {u rest : List Char}, ds = u ++ rest →
    (∀ c ∈ u, isWordChar c = true) → ∃ rest', cs = u ++ rest' ∧ rest'.head? = rest.head? := by
  intro u
  induction u generalizing cs ds with
  | nil =>
    rintro rest rfl -
    refine ⟨cs, rfl, ?_⟩
    cases h with
    | nil => rfl
    | keep => rfl
  | cons c u ih =>
    rintro rest hds hword
    obtain ⟨hc, hu⟩ := List.forall_mem_cons.1 hword
    cases h with
    | nil => simp at hds
    | keep _ h =>
      obtain ⟨rfl, htail⟩ := List.cons.inj hds
      rw [hc] at h
      obtain ⟨rest', rfl, hhead⟩ := ih h htail hu
      exact ⟨rest', rfl, hhead⟩

/-- In a text without blanks, no filler word begins at a character that was kept. -/
theorem afterFiller?_eq_none_of_keep {c : Char} (h : Drops (isWordChar c) cs ds)
    (hnone : afterFiller? (c :: cs) = none) (hblank : ∀ d ∈ c :: cs, isBlank d = false) :
    afterFiller? (c :: ds) = none := by
  refine afterFiller?_eq_none.2 ?_
  rintro rest ⟨w, hw, heq, hend⟩
  obtain ⟨hhead, hletters⟩ := fillerWords_letters w hw
  -- The text has no blanks, so the word consists of letters; then it stood there before the removal.
  have hnoblank : w.toList.any isBlank = false := by
    rw [List.any_eq_false]
    intro d hd
    have hmem : d ∈ c :: ds := heq ▸ List.mem_append_left rest hd
    rw [hblank d (List.mem_cons.2 ((List.mem_cons.1 hmem).imp_right (h.subset d)))]
    exact Bool.false_ne_true
  rw [hnoblank, Bool.false_or, List.all_eq_true] at hletters
  cases hl : w.toList with
  | nil => simp [hl] at hhead
  | cons e u =>
    rw [hl] at heq hletters
    obtain ⟨rfl, hds⟩ := List.cons.inj heq
    obtain ⟨hc, hu⟩ := List.forall_mem_cons.1 hletters
    rw [isWordChar_of_isLetter hc] at h
    obtain ⟨rest', rfl, hrest⟩ := h.word_eq hds fun d hd => isWordChar_of_isLetter (hu d hd)
    refine afterFiller?_eq_none.1 hnone rest' ⟨w, hw, by rw [hl]; rfl, ?_⟩
    rwa [hrest]

/-- A text without blanks has no filler words left. -/
theorem dropFillers_eq (h : Drops inWord cs ds) (hblank : ∀ c ∈ cs, isBlank c = false) :
    dropFillers inWord ds = ds := by
  induction h with
  | nil => rw [dropFillers]
  | keep hkeep h ih =>
    obtain ⟨-, hcs⟩ := List.forall_mem_cons.1 hblank
    rw [dropFillers_keep (hkeep.imp_right fun hnone => h.afterFiller?_eq_none_of_keep hnone hblank),
      ih hcs]
  | drop hfiller h ih =>
    obtain ⟨w, -, rfl, hend⟩ := hfiller
    have hrest := ih fun c hc => hblank c (List.mem_append_right _ hc)
    -- The word is followed by a character of no word, at which no filler word begins.
    cases h with
    | nil => rw [dropFillers]
    | @keep _ c _ _ _ h =>
      have hc : isLetter c = false := by
        have hword : isWordChar c = false := by simpa using hend
        cases hl : isLetter c with
        | false => rfl
        | true => simp [isWordChar_of_isLetter hl] at hword
      rw [dropFillers_keep (.inl rfl)] at hrest
      rw [dropFillers_keep (.inr (afterFiller?_of_not_letter hc _)), hrest]

end Drops

end SymbolicSolver.Query
