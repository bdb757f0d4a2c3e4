import Mathlib.Data.List.TakeWhile
import SymbolicSolver.Proofs.Query.NormalForm
import SymbolicSolver.Proofs.Query.Wording

/-!
# Passes over worded texts

On a worded text with no product left unwritten, a pass removes the blanks and writes the capital `I` as a small
letter: the other name of the logarithm and filler words do not occur, and every `E` is restored. A second pass finds
nothing to do, so this is the normal form.
-/

namespace SymbolicSolver.Query

open Text (isBlank isWordChar isDecimalDigit lowerChar)
open Token (isLetter)

/-! ## The steps of a pass -/

theorem logFree_word {w cs : List Char} (hw : ¬ ['l', 'n'] <:+: w) (hcs : cs.head?.any isLetter = false)
    (h : LogFree cs) : LogFree (w ++ cs) := by
  induction w with
  | nil => exact h
  | cons c w ih =>
    rw [List.infix_cons_iff, not_or] at hw
    refine logFree_cons.2 ⟨?_, ih hw.2⟩
    rintro ⟨rfl, hpre⟩
    -- Of `ln(` the letters stand in the word, or the second one stands where no word does.
    cases w with
    | nil =>
      obtain ⟨rest, rfl⟩ := hpre
      have hn : isLetter 'n' = false := hcs
      exact absurd hn (by decide)
    | cons d w =>
      obtain ⟨rfl, -⟩ := List.cons_prefix_cons.1 hpre
      exact hw.1 ⟨w, rfl⟩

theorem vocabulary_logFree : ∀ w ∈ vocabulary, ¬ ['l', 'n'] <:+: w.map lowerChar := by decide

theorem map_lowerChar_digits {w : List Char} (h : ∀ c ∈ w, c ∈ digits) : w.map lowerChar = w := by
  rw [List.map_congr_left fun c hc => lowerChar_still c (still_of_digit (h c hc)), List.map_id']

theorem logFree_lower {cs : List Char} (h : Worded cs) : LogFree (cs.map lowerChar) := by
  have hstill {c : Char} (hc : c ∈ ' ' :: marks ++ digits) {ds : List Char} (h : LogFree ds) :
      LogFree (lowerChar c :: ds) := by
    rw [lowerChar_still c hc]
    refine logFree_cons.2 ⟨?_, h⟩
    rintro ⟨rfl, -⟩
    exact absurd (isLetter_still _ hc) (by decide)
  have hblank : ' ' ∈ ' ' :: marks ++ digits := List.mem_cons_self
  induction h with
  | nil => exact fun h => by simp at h
  | mark hc _ ih => exact hstill (still_of_mark hc) ih
  | blankBefore _ _ ih => exact hstill hblank ih
  | blankAfter hc _ ih => exact hstill (still_of_mark (mem_marks_of_sign hc)) (hstill hblank ih)
  | @word w cs hw hcs _ ih =>
    rw [List.map_append]
    refine logFree_word ?_ (hcs.map lowerChar_still).notLetter ih
    rcases hw with hw | ⟨-, hw⟩
    · exact vocabulary_logFree w hw
    · rw [map_lowerChar_digits hw]
      intro hinside
      have hl := hw 'l' (hinside.subset List.mem_cons_self)
      exact absurd hl (by decide)

theorem markEuler_cons {c : Char} (hc : c ≠ 'e') (inWord : Bool) (cs : List Char) :
    markEuler inWord (c :: cs) = c :: markEuler (isLetter c) cs := by
  simp [markEuler, hc]

/-- Before something that is no letter, what is marked does not depend on what follows. -/
theorem markEuler_append {rest : List Char} (hrest : rest.head?.any isLetter = false) (cs : List Char)
    (inWord : Bool) : markEuler inWord (cs ++ rest) = markEuler inWord cs ++ markEuler false rest := by
  induction cs generalizing inWord with
  | nil =>
    cases rest with
    | nil => rfl
    | cons c rest =>
      have hc : c ≠ 'e' := by
        rintro rfl
        have he : isLetter 'e' = false := hrest
        exact absurd he (by decide)
      rw [List.nil_append, markEuler_cons hc, markEuler_cons hc]
      rfl
  | cons c cs ih =>
    have hhead : (cs ++ rest).head?.any isLetter = cs.head?.any isLetter := by
      cases cs with
      | nil => exact hrest
      | cons d cs => rfl
    rw [List.cons_append, markEuler, markEuler, hhead, ih]
    rfl

theorem markEuler_of_not_mem {cs : List Char} (h : 'e' ∉ cs) (inWord : Bool) : markEuler inWord cs = cs := by
  induction cs generalizing inWord with
  | nil => rfl
  | cons c cs ih =>
    rw [List.mem_cons, not_or] at h
    rw [markEuler_cons (Ne.symm h.1), ih h.2]

theorem vocabulary_markEuler : ∀ w ∈ vocabulary, markEuler false (w.map lowerChar) = w.map lowerUnit := by
  decide

/-- Of the capitals that a worded text holds, marking restores `E` and leaves a small letter for `I`. -/
theorem markEuler_lower_worded {cs : List Char} (h : Worded cs) :
    markEuler false (cs.map lowerChar) = cs.map lowerUnit := by
  have hstill {c : Char} (hc : c ∈ ' ' :: marks ++ digits) (ds : List Char) :
      markEuler false (lowerChar c :: ds) = lowerUnit c :: markEuler false ds := by
    have he : c ≠ 'e' := by
      rintro rfl
      exact absurd (isLetter_still _ hc) (by decide)
    rw [lowerChar_still c hc, lowerUnit_still c hc, markEuler_cons he, isLetter_still c hc]
  have hblank : ' ' ∈ ' ' :: marks ++ digits := List.mem_cons_self
  induction h with
  | nil => rfl
  | mark hc _ ih =>
    rw [List.map_cons, hstill (still_of_mark hc), ih]
    rfl
  | blankBefore _ _ ih =>
    rw [List.map_cons, hstill hblank, ih]
    rfl
  | blankAfter hc _ ih =>
    rw [List.map_cons, hstill (still_of_mark (mem_marks_of_sign hc)), List.map_cons, hstill hblank, ih]
    rfl
  | @word w cs hw hcs _ ih =>
    rw [List.map_append, markEuler_append (hcs.map lowerChar_still).notLetter, ih, List.map_append]
    congr 1
    rcases hw with hw | ⟨-, hw⟩
    · exact vocabulary_markEuler w hw
    · have hunit : w.map lowerUnit = w := by
        rw [List.map_congr_left fun c hc => lowerUnit_still c (still_of_digit (hw c hc)), List.map_id']
      have he : 'e' ∉ w := fun he => absurd (hw 'e' he) (by decide)
      rw [map_lowerChar_digits hw, hunit, markEuler_of_not_mem he]

/-- No filler word begins like a word of the vocabulary. -/
theorem fillerWords_vocabulary : ∀ f ∈ fillerWords, f.toList.takeWhile isLetter ∉ vocabulary := by
  decide

theorem takeWhile_append_of_head {p : Char → Bool} (cs : List Char) {rest : List Char}
    (h : rest.head?.any p = false) : (cs ++ rest).takeWhile p = cs.takeWhile p := by
  induction cs with
  | nil =>
    cases rest with
    | nil => rfl
    | cons c rest =>
      have hc : p c = false := h
      simp [hc]
  | cons c cs ih => simp only [List.cons_append, List.takeWhile_cons, ih]

theorem notLetter_of_notWord {cs : List Char} (h : cs.head?.any isWordChar = false) :
    cs.head?.any isLetter = false := by
  cases cs with
  | nil => rfl
  | cons c cs =>
    have hc : isWordChar c = false := h
    cases hl : isLetter c with
    | false => exact hl
    | true => rw [isWordChar_of_isLetter hl] at hc; exact absurd hc (by decide)

theorem afterFiller?_word {w rest : List Char} (hw : Word w) (hrest : Parted rest) :
    afterFiller? (w ++ rest) = none := by
  refine afterFiller?_eq_none.2 fun rest' hfiller => ?_
  rcases hw.letters_or_digits with ⟨hname, hletters⟩ | hdigits
  · obtain ⟨f, hf, heq, hend⟩ := hfiller
    have htake := congrArg (List.takeWhile isLetter) heq
    rw [takeWhile_append_of_head w hrest.notLetter, List.takeWhile_eq_self_iff.2 hletters,
      takeWhile_append_of_head f.toList (notLetter_of_notWord hend)] at htake
    exact fillerWords_vocabulary f hf (htake ▸ hname)
  · obtain ⟨c, u, rfl⟩ := List.exists_cons_of_ne_nil hw.ne_nil
    have hhead : isLetter c = true := by simpa using hfiller.head
    rw [isLetter_still c (still_of_digit (hdigits c List.mem_cons_self))] at hhead
    exact absurd hhead (by decide)

theorem dropFillers_parted {rest : List Char} (hrest : Parted rest) (inWord : Bool) :
    dropFillers inWord rest = dropFillers false rest := by
  cases rest with
  | nil => simp [dropFillers]
  | cons c rest =>
    have hletter := isLetter_still c (List.mem_append_left _ (hrest c rfl))
    rw [dropFillers_keep (.inr (afterFiller?_of_not_letter hletter _)),
      dropFillers_keep (.inr (afterFiller?_of_not_letter hletter _))]

theorem dropFillers_append {w rest : List Char} (hw : ∀ c ∈ w, isWordChar c = true) (hrest : Parted rest) :
    dropFillers true (w ++ rest) = w ++ dropFillers false rest := by
  rw [dropFillers_word hw, dropFillers_parted hrest]

theorem isWordChar_mark : ∀ c ∈ ' ' :: marks, isWordChar c = false := forall_mem_of_all (by decide)

/-- A worded text holds no filler word. -/
theorem dropFillers_worded {cs : List Char} (h : Worded cs) : dropFillers false cs = cs := by
  have hmark {c : Char} (hc : c ∈ ' ' :: marks) (ds : List Char) :
      dropFillers false (c :: ds) = c :: dropFillers false ds := by
    have hletter := isLetter_still c (List.mem_append_left _ hc)
    rw [dropFillers_keep (.inr (afterFiller?_of_not_letter hletter _)), isWordChar_mark c hc]
  induction h with
  | nil => simp [dropFillers]
  | mark hc _ ih => rw [hmark (List.mem_cons_of_mem _ hc), ih]
  | blankBefore _ _ ih => rw [hmark List.mem_cons_self, ih]
  | blankAfter hc _ ih =>
    rw [hmark (List.mem_cons_of_mem _ (mem_marks_of_sign hc)), hmark List.mem_cons_self, ih]
  | @word w cs hw hcs _ ih =>
    obtain ⟨c, u, rfl⟩ := List.exists_cons_of_ne_nil hw.ne_nil
    have hword : ∀ d ∈ c :: u, isWordChar d = true := fun d => hw.wordChar
    obtain ⟨hc, hu⟩ := List.forall_mem_cons.1 hword
    have hnone : afterFiller? (c :: (u ++ cs)) = none := afterFiller?_word hw hcs
    rw [List.cons_append, dropFillers_keep (.inr hnone), hc, dropFillers_append hu hcs, ih]

/-! ## Unwritten products -/

theorem meetsFactor_lowerUnit (c d : Char) : meetsFactor (lowerUnit c) (lowerUnit d) = meetsFactor c d := by
  have hI : isDecimalDigit 'I' = false ∧ isDecimalDigit 'i' = false ∧ isLetter 'I' = true ∧ isLetter 'i' = true := by
    decide
  obtain ⟨hI, hi, hI', hi'⟩ := hI
  unfold lowerUnit meetsFactor
  split <;> split <;> simp_all

theorem Spaced.map_lowerUnit {cs : List Char} (h : Spaced cs) : Spaced (cs.map lowerUnit) :=
  (List.isChain_map lowerUnit).2 (h.imp fun c d hcd => (meetsFactor_lowerUnit c d).trans hcd)

/-- No product is unwritten beside a sign. -/
theorem meetsFactor_sign {s : Char} (hs : s ∈ ['+', '-']) (c : Char) :
    meetsFactor s c = false ∧ meetsFactor c s = false := by
  have hsign : ∀ s ∈ ['+', '-'], isDecimalDigit s = false ∧ s ≠ ')' ∧ isLetter s = false ∧ s ≠ '(' :=
    forall_mem_of_all (by decide)
  obtain ⟨hdigit, hclose, hletter, hopen⟩ := hsign s hs
  simp [meetsFactor, hdigit, hclose, hletter, hopen]

/-- Blanks stand beside signs, so without them no more products are unwritten than with them. -/
theorem Spaced.unblanked {cs : List Char} (hcs : Worded cs) (h : Spaced cs) : Spaced (dense cs) := by
  have hstep {c : Char} {cs : List Char} (hcs : Worded cs) (h : Spaced (c :: cs))
      (ih : Spaced (dense cs)) : Spaced (c :: dense cs) := by
    refine spaced_cons.2 ⟨?_, ih⟩
    rcases hcs.head_dense with heq | ⟨-, s, hs, heq⟩
    · rw [heq]
      exact (spaced_cons.1 h).1
    · rw [heq]
      exact (meetsFactor_sign hs c).2
  induction hcs with
  | nil => exact h
  | mark hc hcs ih =>
    rw [dense_cons (isBlank_mark _ hc)]
    exact hstep hcs h (ih (spaced_cons.1 h).2)
  | blankBefore _ _ ih => exact ih (spaced_cons.1 h).2
  | @blankAfter c cs hc _ ih =>
    rw [dense_cons (isBlank_sign _ hc), dense_blank]
    refine spaced_cons.2 ⟨?_, ih (spaced_cons.1 (spaced_cons.1 h).2).2⟩
    cases (dense cs).head? <;> simp [(meetsFactor_sign hc _).1]
  | @word w cs hw _ hcs ih =>
    rw [hw.dense_append]
    have hblank : ∀ c ∈ w, isBlank c = false := fun c => hw.notBlank
    clear hw
    induction w with
    | nil => exact ih h
    | cons c w ihw =>
      cases w with
      | nil => exact hstep hcs h (ih (spaced_cons.1 h).2)
      | cons d w =>
        obtain ⟨hhead, htail⟩ := spaced_cons.1 h
        exact spaced_cons.2 ⟨hhead, ihw htail (List.forall_mem_cons.1 hblank).2⟩

/-! ## Passes -/

/-- A worded text in which every product is written out. -/
structure Written (cs : List Char) : Prop where
  worded : Worded cs
  spaced : Spaced cs

theorem Written.trim {cs : List Char} (h : Written cs) : Written (Text.trim cs) := by
  refine ⟨h.worded.trimStart.trimEnd, ?_⟩
  obtain ⟨before, after, heq⟩ := trim_infix cs
  have hspaced : Spaced (before ++ Text.trim cs ++ after) := heq.symm ▸ h.spaced
  exact (List.isChain_append.1 (List.isChain_append.1 hspaced).1).2.1

theorem dense_trim (cs : List Char) : dense (Text.trim cs) = dense cs := by
  rw [Text.trim, dense_trimEnd, dense_trimStart]

theorem dense_map_lowerUnit (cs : List Char) : dense (cs.map lowerUnit) = (dense cs).map lowerUnit := by
  have hblank (c : Char) : isBlank (lowerUnit c) = isBlank c := by
    unfold lowerUnit
    split
    · rename_i h
      rw [h]
      decide
    · rfl
  simp [dense, List.filter_map, Function.comp_def, hblank]

theorem Written.normal {cs : List Char} (h : Written cs) : Written ((dense cs).map lowerUnit) :=
  ⟨h.worded.unblanked.map_lowerUnit, (h.spaced.unblanked h.worded).map_lowerUnit⟩

theorem alphabet_notCaseless : ∀ c ∈ alphabet, c ∉ Text.caseless := forall_mem_of_all (by decide)

/-- The alphabet holds none of the capitals that become lower case in a way of their own. -/
theorem alphabet_simple : ∀ c ∈ alphabet, c ≠ 'Σ' ∧ c ≠ 'İ' := forall_mem_of_all (by decide)

/-- What a pass makes of a written text. -/
theorem Written.pass_eq {cs : List Char} (h : Written cs) : pass cs = (dense cs).map lowerUnit := by
  have hplain := flatMap_plainChar fun c hc => alphabet_notCaseless c (h.trim.worded.mem_alphabet hc)
  have hlower : Text.lower (Text.trim cs) = (Text.trim cs).map lowerChar :=
    Text.lower_eq_map fun c hc => alphabet_simple c (h.trim.worded.mem_alphabet hc)
  rw [Query.pass_eq, hplain, hlower, renameLog_of_logFree (logFree_lower h.trim.worded),
    markEuler_lower_worded h.trim.worded, dropFillers_worded h.trim.worded.map_lowerUnit,
    writeProducts_of_spaced h.trim.spaced.map_lowerUnit]
  exact (dense_map_lowerUnit _).trans (congrArg _ (dense_trim cs))

/-- A second pass has nothing to do. -/
theorem Written.normalChars_eq {cs : List Char} (h : Written cs) :
    normalChars cs = (dense cs).map lowerUnit := by
  have hunit (c : Char) : lowerUnit (lowerUnit c) = lowerUnit c := by
    by_cases hc : c = 'I'
    · rw [hc]
      decide
    · have hself : lowerUnit c = c := if_neg hc
      rw [hself, hself]
  have hdense (cs : List Char) : dense (dense cs) = dense cs := by simp [dense]
  have hfixed : pass ((dense cs).map lowerUnit) = (dense cs).map lowerUnit := by
    rw [h.normal.pass_eq, dense_map_lowerUnit, hdense, List.map_map]
    exact List.map_congr_left fun c _ => hunit c
  rw [normalChars, h.pass_eq]
  exact settle_eq (k := 0) (Nat.zero_le _) hfixed

/-! ## Putting texts together -/

/-- What stands between two operands. -/
def operators : List (List Char) := [['*'], ['*', '*'], ['/'], [' ', '+', ' '], [' ', '-', ' ']]

theorem spaced_of_forall {cs : List Char} (h : ∀ c ∈ cs, ∀ d ∈ cs, meetsFactor c d = false) : Spaced cs := by
  induction cs with
  | nil => exact .nil
  | cons c cs ih =>
    refine spaced_cons.2 ⟨?_, ih fun d hd e he => h d (List.mem_cons_of_mem _ hd) e (List.mem_cons_of_mem _ he)⟩
    cases cs with
    | nil => rfl
    | cons d cs => exact h c List.mem_cons_self d (List.mem_cons_of_mem _ List.mem_cons_self)

/-- Two texts may stand side by side where no product can end or none can begin. -/
theorem Spaced.append {cs ds : List Char} (hcs : Spaced cs) (hds : Spaced ds)
    (h : (∀ c ∈ cs.getLast?, isDecimalDigit c = false ∧ c ≠ ')') ∨
      ∀ d ∈ ds.head?, isLetter d = false ∧ d ≠ '(') : Spaced (cs ++ ds) := by
  refine List.isChain_append.2 ⟨hcs, hds, fun c hc d hd => ?_⟩
  rcases h with h | h
  · obtain ⟨hdigit, hclose⟩ := h c hc
    simp [meetsFactor, hdigit, hclose]
  · obtain ⟨hletter, hopen⟩ := h d hd
    simp [meetsFactor, hletter, hopen]

theorem written_word {w : List Char} (h : Word w) : Written w := by
  refine ⟨by simpa using Worded.word h (by simp [Parted]) .nil, spaced_of_forall fun c hc d hd => ?_⟩
  rcases h.letters_or_digits with ⟨-, hletters⟩ | hdigits
  · cases hmeets : meetsFactor c d with
    | false => rfl
    | true =>
      have hc := hletters c hc
      rw [meetsFactor_not_letter hmeets] at hc
      exact hc.symm
  · have hopen : d ≠ '(' := by
      rintro rfl
      exact absurd (hdigits _ hd) (by decide)
    simp [meetsFactor, isLetter_still d (still_of_digit (hdigits d hd)), hopen]

theorem operators_ne_nil : ∀ op ∈ operators, op ≠ [] := by decide

theorem operators_spaced : ∀ op ∈ operators, Spaced op := by
  simp only [operators, Spaced]
  decide

/-- An operator begins and ends with a blank, a star or a bar. -/
theorem operators_ends {op : List Char} (hop : op ∈ operators) :
    (∀ d ∈ op.head?, d ∈ [' ', '*', '/']) ∧ ∀ c ∈ op.getLast?, c ∈ [' ', '*', '/'] := by
  simp only [operators, List.mem_cons, List.not_mem_nil, or_false] at hop
  rcases hop with rfl | rfl | rfl | rfl | rfl <;> simp

theorem operator_chars : ∀ c ∈ [' ', '*', '/'],
    c ∈ ' ' :: marks ∧ isLetter c = false ∧ isDecimalDigit c = false ∧ c ≠ '(' ∧ c ≠ ')' :=
  forall_mem_of_all (by decide)

theorem Worded.operator {op ds : List Char} (hds : Worded ds) (hop : op ∈ operators) : Worded (op ++ ds) := by
  simp only [operators, List.mem_cons, List.not_mem_nil, or_false] at hop
  rcases hop with rfl | rfl | rfl | rfl | rfl
  · exact .mark (by decide) hds
  · exact .mark (by decide) (.mark (by decide) hds)
  · exact .mark (by decide) hds
  · exact .blankBefore (by decide) (.blankAfter (by decide) hds)
  · exact .blankBefore (by decide) (.blankAfter (by decide) hds)

theorem Written.join {cs ds op : List Char} (h : Written cs) (hop : op ∈ operators) (hds : Written ds) :
    Written (cs ++ op ++ ds) := by
  obtain ⟨hhead, hlast⟩ := operators_ends hop
  have hne := operators_ne_nil op hop
  have hparted : Parted (op ++ ds) := by
    obtain ⟨c, op, rfl⟩ := List.exists_cons_of_ne_nil hne
    exact parted_cons (operator_chars c (hhead c rfl)).1 _
  have hbefore : Spaced (cs ++ op) := by
    refine h.spaced.append (operators_spaced op hop) (.inr fun d hd => ?_)
    obtain ⟨-, hletter, -, hopen, -⟩ := operator_chars d (hhead d hd)
    exact ⟨hletter, hopen⟩
  refine ⟨?_, hbefore.append hds.spaced (.inl fun c hc => ?_)⟩
  · rw [List.append_assoc]
    exact h.worded.append hparted (hds.worded.operator hop)
  · rw [List.getLast?_append_of_ne_nil _ hne] at hc
    obtain ⟨-, -, hdigit, -, hclose⟩ := operator_chars c (hlast c hc)
    exact ⟨hdigit, hclose⟩

theorem Written.paren {cs : List Char} (h : Written cs) : Written ('(' :: (cs ++ [')'])) := by
  have hclose : Parted [')'] := parted_cons (by decide) []
  refine ⟨.mark (by decide) (h.worded.append hclose (.mark (by decide) .nil)), spaced_cons.2 ⟨?_, ?_⟩⟩
  · have hopen : isDecimalDigit '(' = false := by decide
    cases (cs ++ [')']).head? <;> simp [meetsFactor, hopen]
  · refine h.spaced.append (spaced_cons.2 ⟨rfl, .nil⟩) (.inr fun d hd => ?_)
    obtain rfl : ')' = d := by simpa using hd
    decide

theorem Written.call {f cs : List Char} (hf : f ∈ vocabulary) (h : Written cs) :
    Written (f ++ '(' :: (cs ++ [')'])) := by
  refine ⟨.word (.inl hf) (parted_cons (by decide) _) h.paren.worded,
    (written_word (.inl hf)).spaced.append h.paren.spaced (.inl fun c hc => ?_)⟩
  have hc := vocabulary_letters f hf c (List.mem_of_getLast? hc)
  refine ⟨isDecimalDigit_of_isLetter hc, ?_⟩
  rintro rfl
  exact absurd hc (by decide)

theorem Written.minus {cs : List Char} (h : Written cs) : Written ('-' :: cs) := by
  refine ⟨.mark (by decide) h.worded, spaced_cons.2 ⟨?_, h.spaced⟩⟩
  cases cs.head? <;> simp [(meetsFactor_sign (s := '-') (by decide) _).1]

end SymbolicSolver.Query
