import Mathlib.Data.List.Infix
import SymbolicSolver.Expr.Func
import SymbolicSolver.Proofs.Query.Steps

/-!
# Texts in plain words

A text is worded if it is a row of numbers, names of a fixed vocabulary and marks, in which no two words stand side by
side and blanks stand only beside a plus or minus sign. Worded texts stay so without their blanks, without the blanks
at their ends, and with a small letter for the capital `I`.
-/

namespace SymbolicSolver.Query

open Text (isBlank isWordChar lowerChar)
open Token (isLetter)

/-! ## Words and marks -/

/-- Lower-case letters that are neither a filler word nor the name of a constant. -/
def plainLetters : List Char :=
  ['b', 'c', 'd', 'f', 'g', 'h', 'i', 'j', 'k', 'l', 'm', 'n', 'o', 'p', 'q', 'r', 's', 't', 'u', 'v', 'w', 'x', 'y',
    'z']

/-- Names of functions and constants, and the plain letters. -/
def vocabulary : List (List Char) :=
  (Func.all.map Func.name ++ ["sqrt", "exp", "pi", "E", "I", "oo", "nan"]).map String.toList ++
    plainLetters.map fun c => [c]

/-- Characters that stand for themselves. -/
def marks : List Char := ['+', '-', '*', '/', '(', ')']

def digits : List Char := ['0', '1', '2', '3', '4', '5', '6', '7', '8', '9']

/-- The characters of worded texts. -/
def alphabet : List Char := ' ' :: marks ++ digits ++ ['a', 'e', 'E', 'I'] ++ plainLetters

/-- A name of the vocabulary or a row of digits. -/
def Word (w : List Char) : Prop := w ∈ vocabulary ∨ (w ≠ [] ∧ ∀ c ∈ w, c ∈ digits)

/-- The text begins with no word. -/
def Parted (cs : List Char) : Prop := ∀ c ∈ cs.head?, c ∈ ' ' :: marks

/-- A row of words and marks. -/
inductive Worded : List Char → Prop
  | nil : Worded []
  | mark {c : Char} {cs : List Char} (hc : c ∈ marks) (h : Worded cs) : Worded (c :: cs)
  | blankBefore {c : Char} {cs : List Char} (hc : c ∈ ['+', '-']) (h : Worded (c :: cs)) :
      Worded (' ' :: c :: cs)
  | blankAfter {c : Char} {cs : List Char} (hc : c ∈ ['+', '-']) (h : Worded cs) : Worded (c :: ' ' :: cs)
  | word {w cs : List Char} (hw : Word w) (hcs : Parted cs) (h : Worded cs) : Worded (w ++ cs)

/-- The small letter for the capital that names the imaginary unit. -/
def lowerUnit (c : Char) : Char := if c = 'I' then 'i' else c

/-- The text without its blanks. -/
def dense (cs : List Char) : List Char := cs.filter fun c => !isBlank c

/-! ## Characters -/

/-- What a test finds of all characters of a list holds of each of them. -/
theorem forall_mem_of_all {p : Char → Prop} [DecidablePred p] {cs : List Char}
    (h : cs.all (fun c => decide (p c)) = true) : ∀ c ∈ cs, p c := by
  simpa using h

theorem isBlank_mark : ∀ c ∈ marks, isBlank c = false := forall_mem_of_all (by decide)

theorem isBlank_sign : ∀ c ∈ ['+', '-'], isBlank c = false := forall_mem_of_all (by decide)

theorem isWordChar_digit : ∀ c ∈ digits, isWordChar c = true := forall_mem_of_all (by decide)

/-- Blanks, marks and digits are no letters. -/
theorem isLetter_still : ∀ c ∈ ' ' :: marks ++ digits, isLetter c = false := forall_mem_of_all (by decide)

theorem lowerChar_still : ∀ c ∈ ' ' :: marks ++ digits, lowerChar c = c := forall_mem_of_all (by decide)

theorem lowerUnit_still : ∀ c ∈ ' ' :: marks ++ digits, lowerUnit c = c := forall_mem_of_all (by decide)

theorem still_of_mark {c : Char} (h : c ∈ marks) : c ∈ ' ' :: marks ++ digits :=
  List.mem_append_left _ (List.mem_cons_of_mem _ h)

theorem still_of_digit {c : Char} (h : c ∈ digits) : c ∈ ' ' :: marks ++ digits :=
  List.mem_append_right _ h

theorem mem_marks_of_sign {c : Char} (h : c ∈ ['+', '-']) : c ∈ marks :=
  List.mem_append_left ['*', '/', '(', ')'] h

theorem mem_alphabet_of_still {c : Char} (h : c ∈ ' ' :: marks ++ digits) : c ∈ alphabet :=
  List.mem_append_left _ (List.mem_append_left _ h)

/-- Of the alphabet only the space is a blank. -/
theorem isBlank_alphabet : ∀ c ∈ alphabet, isBlank c = true → c = ' ' := forall_mem_of_all (by decide)

/-! ## Words -/

theorem vocabulary_ne_nil : ∀ w ∈ vocabulary, w ≠ [] := by decide

theorem vocabulary_letters : ∀ w ∈ vocabulary, ∀ c ∈ w, isLetter c = true := by
  have hall : ∀ w ∈ vocabulary, w.all isLetter = true := by decide
  exact fun w hw => List.all_eq_true.1 (hall w hw)

theorem vocabulary_alphabet : ∀ w ∈ vocabulary, ∀ c ∈ w, c ∈ alphabet := by
  have hall : ∀ w ∈ vocabulary, w.all (fun c => decide (c ∈ alphabet)) = true := by decide
  exact fun w hw => forall_mem_of_all (hall w hw)

theorem vocabulary_lowerUnit : ∀ w ∈ vocabulary, w.map lowerUnit ∈ vocabulary := by decide

namespace Word

variable {w : List Char} (h : Word w)

include h

theorem ne_nil : w ≠ [] := h.elim (vocabulary_ne_nil w) And.left

/-- Every character of a word is a letter, or every character is a digit. -/
theorem letters_or_digits : (w ∈ vocabulary ∧ ∀ c ∈ w, isLetter c = true) ∨ ∀ c ∈ w, c ∈ digits :=
  h.imp (fun h => ⟨h, vocabulary_letters w h⟩) And.right

theorem mem_alphabet {c : Char} (hc : c ∈ w) : c ∈ alphabet := by
  rcases h with h | ⟨-, h⟩
  · exact vocabulary_alphabet w h c hc
  · exact mem_alphabet_of_still (still_of_digit (h c hc))

theorem wordChar {c : Char} (hc : c ∈ w) : isWordChar c = true := by
  rcases h with h | ⟨-, h⟩
  · exact isWordChar_of_isLetter (vocabulary_letters w h c hc)
  · exact isWordChar_digit c (h c hc)

theorem notBlank {c : Char} (hc : c ∈ w) : isBlank c = false := by
  cases hb : isBlank c with
  | false => rfl
  | true =>
    obtain rfl := isBlank_alphabet c (h.mem_alphabet hc) hb
    exact absurd (h.wordChar hc) (by decide)

theorem map_lowerUnit : Word (w.map lowerUnit) := by
  rcases h with h | ⟨hne, h⟩
  · exact .inl (vocabulary_lowerUnit w h)
  · rw [List.map_congr_left fun c hc => lowerUnit_still c (still_of_digit (h c hc)), List.map_id']
    exact .inr ⟨hne, h⟩

end Word

theorem Parted.notLetter {cs : List Char} (h : Parted cs) : cs.head?.any isLetter = false := by
  cases cs with
  | nil => rfl
  | cons c cs => exact isLetter_still c (List.mem_append_left _ (h c rfl))

theorem parted_cons {c : Char} (hc : c ∈ ' ' :: marks) (cs : List Char) : Parted (c :: cs) := by
  intro d hd
  obtain rfl : c = d := by simpa using hd
  exact hc

theorem Parted.map {f : Char → Char} (hf : ∀ c ∈ ' ' :: marks ++ digits, f c = c) {cs : List Char}
    (h : Parted cs) : Parted (cs.map f) := by
  cases cs with
  | nil => exact h
  | cons c cs =>
    rw [List.map_cons, hf c (List.mem_append_left _ (h c rfl))]
    exact parted_cons (h c rfl) _

namespace Worded

variable {cs ds : List Char}

theorem mem_alphabet (h : Worded cs) {c : Char} (hc : c ∈ cs) : c ∈ alphabet := by
  have hblank : ' ' ∈ alphabet := List.mem_cons_self
  have hmark {c : Char} (hc : c ∈ marks) : c ∈ alphabet := mem_alphabet_of_still (still_of_mark hc)
  induction h with
  | nil => simp at hc
  | mark hm _ ih =>
    rcases List.mem_cons.1 hc with rfl | hc
    · exact hmark hm
    · exact ih hc
  | blankBefore _ _ ih =>
    rcases List.mem_cons.1 hc with rfl | hc
    · exact hblank
    · exact ih hc
  | blankAfter hs _ ih =>
    rcases List.mem_cons.1 hc with rfl | hc
    · exact hmark (mem_marks_of_sign hs)
    · rcases List.mem_cons.1 hc with rfl | hc
      · exact hblank
      · exact ih hc
  | word hw _ _ ih =>
    rcases List.mem_append.1 hc with hc | hc
    · exact hw.mem_alphabet hc
    · exact ih hc

theorem append (h : Worded cs) (hparted : Parted ds) (hds : Worded ds) : Worded (cs ++ ds) := by
  induction h with
  | nil => exact hds
  | mark hc _ ih => exact .mark hc ih
  | blankBefore hc _ ih => exact .blankBefore hc ih
  | blankAfter hc _ ih => exact .blankAfter hc ih
  | @word w cs hw hcs _ ih =>
    rw [List.append_assoc]
    refine .word hw ?_ ih
    cases cs with
    | nil => exact hparted
    | cons c cs => exact hcs

/-- Where a word stands or the text ends, no blank stands; else the text begins as it does without blanks, or with a
blank before a sign. -/
theorem head_dense (h : Worded cs) : (dense cs).head? = cs.head? ∨
    cs.head? = some ' ' ∧ ∃ c ∈ ['+', '-'], (dense cs).head? = some c := by
  cases h with
  | nil => exact .inl rfl
  | mark hc => exact .inl (by simp [dense, isBlank_mark _ hc])
  | @blankBefore c cs hc =>
    have hb := isBlank_sign _ hc
    exact .inr ⟨rfl, c, hc, by simp [dense, hb, show isBlank ' ' = true from rfl]⟩
  | blankAfter hc => exact .inl (by simp [dense, isBlank_sign _ hc])
  | @word w cs hw =>
    obtain ⟨c, u, rfl⟩ := List.exists_cons_of_ne_nil hw.ne_nil
    exact .inl (by simp [dense, hw.notBlank List.mem_cons_self])

theorem parted_dense (h : Worded cs) (hparted : Parted cs) : Parted (dense cs) := by
  intro c hc
  rcases h.head_dense with heq | ⟨-, d, hd, heq⟩
  · exact hparted c (heq ▸ hc)
  · rw [heq] at hc
    obtain rfl : d = c := by simpa using hc
    exact List.mem_cons_of_mem _ (mem_marks_of_sign hd)

end Worded

theorem dense_cons {c : Char} (h : isBlank c = false) (cs : List Char) : dense (c :: cs) = c :: dense cs := by
  simp [dense, h]

theorem dense_blank (cs : List Char) : dense (' ' :: cs) = dense cs := rfl

theorem Word.dense_append {w : List Char} (h : Word w) (cs : List Char) : dense (w ++ cs) = w ++ dense cs := by
  rw [dense, List.filter_append, List.filter_eq_self.2 fun c hc => by simp [h.notBlank hc], dense]

namespace Worded

variable {cs ds : List Char}

/-- Without its blanks a worded text is worded. -/
theorem unblanked (h : Worded cs) : Worded (dense cs) := by
  induction h with
  | nil => exact .nil
  | mark hc _ ih =>
    rw [dense_cons (isBlank_mark _ hc)]
    exact .mark hc ih
  | blankBefore _ _ ih => exact ih
  | blankAfter hc _ ih =>
    rw [dense_cons (isBlank_sign _ hc), dense_blank]
    exact .mark (mem_marks_of_sign hc) ih
  | word hw hcs h ih =>
    rw [hw.dense_append]
    exact .word hw (h.parted_dense hcs) ih

theorem map_lowerUnit (h : Worded cs) : Worded (cs.map lowerUnit) := by
  have hblank : lowerUnit ' ' = ' ' := rfl
  have hmark {c : Char} (hc : c ∈ marks) : lowerUnit c = c := lowerUnit_still c (still_of_mark hc)
  induction h with
  | nil => exact .nil
  | mark hc _ ih =>
    rw [List.map_cons, hmark hc]
    exact .mark hc ih
  | blankBefore hc _ ih =>
    rw [List.map_cons, hmark (mem_marks_of_sign hc)] at ih
    rw [List.map_cons, List.map_cons, hblank, hmark (mem_marks_of_sign hc)]
    exact .blankBefore hc ih
  | blankAfter hc _ ih =>
    rw [List.map_cons, List.map_cons, hblank, hmark (mem_marks_of_sign hc)]
    exact .blankAfter hc ih
  | word hw hcs _ ih =>
    rw [List.map_append]
    exact .word hw.map_lowerUnit (hcs.map lowerUnit_still) ih

end Worded

/-! ## Blanks at the ends -/

/-- A worded text without a blank at its end is worded. -/
theorem Worded.dropLast {cs : List Char} (h : Worded (cs ++ [' '])) : Worded cs := by
  generalize hds : cs ++ [' '] = ds at h
  induction h generalizing cs with
  | nil => simp at hds
  | mark hc _ ih =>
    cases cs with
    | nil => exact .nil
    | cons d cs =>
      rw [List.cons_append, List.cons.injEq] at hds
      exact hds.1 ▸ .mark hc (ih hds.2)
  | @blankBefore c ds hc _ ih =>
    cases cs with
    | nil => simp at hds
    | cons d cs =>
      rw [List.cons_append, List.cons.injEq] at hds
      obtain ⟨rfl, hds⟩ := hds
      have hcs := ih hds
      cases cs with
      | nil =>
        rw [List.nil_append, List.cons.injEq] at hds
        exact absurd (hds.1 ▸ hc) (by decide)
      | cons d cs =>
        rw [List.cons_append, List.cons.injEq] at hds
        obtain ⟨rfl, -⟩ := hds
        exact .blankBefore hc hcs
  | blankAfter hc _ ih =>
    cases cs with
    | nil => simp at hds
    | cons d cs =>
      rw [List.cons_append, List.cons.injEq] at hds
      obtain ⟨rfl, hds⟩ := hds
      cases cs with
      | nil => exact .mark (mem_marks_of_sign hc) .nil
      | cons b cs =>
        rw [List.cons_append, List.cons.injEq] at hds
        obtain ⟨rfl, hds⟩ := hds
        exact .blankAfter hc (ih hds)
  | @word w ds hw hparted _ ih =>
    rcases List.eq_nil_or_concat ds with rfl | ⟨es, e, rfl⟩
    · -- a word does not end with a blank
      rw [List.append_nil] at hds
      have hblank := hw.notBlank (hds ▸ List.mem_append_right cs (List.mem_singleton_self ' '))
      exact absurd hblank (by decide)
    · rw [List.concat_eq_append, ← List.append_assoc] at hds
      obtain ⟨rfl, he⟩ := List.append_inj' hds rfl
      refine .word hw ?_ (ih (by rw [he, List.concat_eq_append]))
      cases es with
      | nil => simp [Parted]
      | cons d es => exact hparted

theorem Worded.trimStart {cs : List Char} (h : Worded cs) : Worded (Text.trimStart cs) := by
  have hkeep {c : Char} (hc : isBlank c = false) (ds : List Char) :
      Text.trimStart (c :: ds) = c :: ds := by
    simp [Text.trimStart, hc]
  cases h with
  | nil => exact .nil
  | mark hc h =>
    rw [hkeep (isBlank_mark _ hc)]
    exact .mark hc h
  | @blankBefore c ds hc h =>
    have hdrop : Text.trimStart (' ' :: c :: ds) = c :: ds := hkeep (isBlank_sign _ hc) ds
    rw [hdrop]
    exact h
  | blankAfter hc h =>
    rw [hkeep (isBlank_sign _ hc)]
    exact .blankAfter hc h
  | word hw hcs h =>
    obtain ⟨c, u, rfl⟩ := List.exists_cons_of_ne_nil hw.ne_nil
    rw [List.cons_append, hkeep (hw.notBlank List.mem_cons_self)]
    exact .word hw hcs h

theorem trimEnd_concat (cs : List Char) (c : Char) :
    Text.trimEnd (cs ++ [c]) = if isBlank c then Text.trimEnd cs else cs ++ [c] := by
  rw [Text.trimEnd, List.reverse_append, List.reverse_singleton, List.singleton_append, List.dropWhile_cons]
  split
  · rfl
  · simp

theorem Worded.trimEnd {cs : List Char} (h : Worded cs) : Worded (Text.trimEnd cs) := by
  induction cs using List.reverseRecOn with
  | nil => exact h
  | append_singleton cs c ih =>
    rw [trimEnd_concat]
    split
    · rename_i hblank
      have hc : c ∈ alphabet := h.mem_alphabet (List.mem_append_right cs (List.mem_singleton_self c))
      obtain rfl := isBlank_alphabet c hc hblank
      exact ih h.dropLast
    · exact h

theorem dense_trimEnd (cs : List Char) : dense (Text.trimEnd cs) = dense cs := by
  induction cs using List.reverseRecOn with
  | nil => rfl
  | append_singleton cs c ih =>
    rw [trimEnd_concat]
    split
    · rename_i hblank
      rw [ih, dense, dense, List.filter_append]
      simp [hblank]
    · rfl

theorem dense_trimStart (cs : List Char) : dense (Text.trimStart cs) = dense cs := by
  induction cs with
  | nil => rfl
  | cons c cs ih =>
    rw [Text.trimStart, List.dropWhile_cons]
    split
    · rename_i hblank
      rw [Text.trimStart] at ih
      rw [ih]
      simp [dense, hblank]
    · rfl

theorem trim_infix (cs : List Char) : Text.trim cs <:+: cs := by
  have hstart : Text.trimStart cs <:+ cs := List.dropWhile_suffix isBlank
  have hend : (Text.trimStart cs).reverse.dropWhile isBlank <:+ (Text.trimStart cs).reverse :=
    List.dropWhile_suffix isBlank
  have hstarts : Text.trim cs <+: Text.trimStart cs := by
    rw [← List.reverse_suffix, Text.trim, Text.trimEnd, List.reverse_reverse]
    exact hend
  exact hstarts.isInfix.trans hstart.isInfix

end SymbolicSolver.Query
