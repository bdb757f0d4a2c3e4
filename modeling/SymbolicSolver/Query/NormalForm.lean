import SymbolicSolver.Text.Digit
import SymbolicSolver.Text.Lowercase
import SymbolicSolver.Text.Search
import SymbolicSolver.Text.Word
import SymbolicSolver.Token

/-!
# The normal form of a query

A query in words and informal notation becomes a formula without blanks: typographic minus signs and `^` are
replaced, letters become lower case, the lone letter `e` becomes the constant `E`, filler words go while the names
of functions that are called wear a tag, and multiplication signs are put where a digit or a closing parenthesis
meets a letter or an opening one. Each step may give another one something to do, so the pass is repeated until
nothing changes.
-/

namespace SymbolicSolver.Query

open Text (isBlank isWordChar isDecimalDigit dropWord?)
open Token (isLetter)

/-! ## Characters -/

/-- A character in plain notation: dashes are minus signs, and the circumflex is a doubled star. -/
def plainChar (c : Char) : List Char :=
  if c = '−' ∨ c = '–' then ['-']
  else if c = '^' then ['*', '*']
  else [c]

/-- The other name of the logarithm, before its argument. -/
def renameLog : List Char → List Char
  | 'l' :: 'n' :: '(' :: cs => 'l' :: 'o' :: 'g' :: '(' :: renameLog cs
  | c :: cs => c :: renameLog cs
  | [] => []

/-- Writes every `e` that is a word of its own among letters as `E`. `inWord` says whether a letter stands
before the text. -/
def markEuler (inWord : Bool) : List Char → List Char
  | [] => []
  | c :: cs =>
    let alone := c = 'e' && !inWord && !(cs.head?.any isLetter)
    (if alone then 'E' else c) :: markEuler (isLetter c) cs

/-! ## Names of functions -/

/-- The names of functions. -/
def functionNames : List String :=
  ["sin", "cos", "tan", "cot", "sec", "csc", "asin", "acos", "atan", "acot", "asec", "acsc",
    "sinh", "cosh", "tanh", "exp", "log", "sqrt"]

/-- What stands before the name of a function that is called while filler words are removed. -/
def nameTag : List Char := "FUNC_".toList

/-- A name at the start of a text, and what follows the parenthesis that the given reader finds behind it. -/
def nameBefore? (opening? : List Char → Option (List Char)) (cs : List Char) :
    Option (List Char × List Char) :=
  functionNames.findSome? fun w =>
    ((dropWord? w.toList cs).bind opening?).map fun rest => (w.toList, rest)

/-- A name that is called at the start of a text. Blanks may stand before the parenthesis. -/
def calledName? (cs : List Char) : Option (List Char × List Char) :=
  nameBefore? (fun rest => dropWord? ['('] (Text.trimStart rest)) cs

/-- A tagged name at the start of a text. -/
def taggedName? (cs : List Char) : Option (List Char × List Char) :=
  (dropWord? nameTag cs).bind (nameBefore? (dropWord? ['(']))

theorem dropWord?_length {ws cs rest : List Char} (h : dropWord? ws cs = some rest) :
    rest.length + ws.length = cs.length := by
  induction ws generalizing cs with
  | nil =>
    simp only [dropWord?, Option.some.injEq] at h
    simp [h]
  | cons w ws ih =>
    cases cs with
    | nil => simp [dropWord?] at h
    | cons c cs =>
      simp only [dropWord?] at h
      split at h
      · have := ih h
        simp only [List.length_cons]
        omega
      · simp at h

theorem nameBefore?_eq_some {opening? : List Char → Option (List Char)} {cs w rest : List Char}
    (h : nameBefore? opening? cs = some (w, rest)) :
    ∃ name ∈ functionNames, w = name.toList ∧
      ∃ behind, dropWord? w cs = some behind ∧ opening? behind = some rest := by
  obtain ⟨name, hname, h⟩ := List.exists_of_findSome?_eq_some h
  obtain ⟨rest', h, heq⟩ := Option.map_eq_some_iff.1 h
  obtain ⟨behind, hdrop, hopen⟩ := Option.bind_eq_some_iff.1 h
  obtain ⟨rfl, rfl⟩ := Prod.mk.inj heq
  exact ⟨name, hname, rfl, behind, hdrop, hopen⟩

theorem length_calledName? {cs w rest : List Char} (h : calledName? cs = some (w, rest)) :
    rest.length < cs.length := by
  obtain ⟨-, -, -, behind, hdrop, hopen⟩ := nameBefore?_eq_some h
  have hle : (Text.trimStart behind).length ≤ behind.length := (List.dropWhile_sublist Text.isBlank).length_le
  have hname := dropWord?_length hdrop
  have hparen := dropWord?_length hopen
  simp only [List.length_singleton] at hparen
  omega

theorem length_taggedName? {cs w rest : List Char} (h : taggedName? cs = some (w, rest)) :
    rest.length < cs.length := by
  obtain ⟨name, htag, h⟩ := Option.bind_eq_some_iff.1 h
  obtain ⟨-, -, -, behind, hdrop, hopen⟩ := nameBefore?_eq_some h
  have htagged := dropWord?_length htag
  have hname := dropWord?_length hdrop
  have hparen := dropWord?_length hopen
  simp only [List.length_singleton] at hparen
  omega

/-- Tags every name that is called, and removes the blanks behind it. `inWord` says whether a word character
stands before the text, so that no name begins here. -/
def tagNames (inWord : Bool) : List Char → List Char
  | [] => []
  | c :: cs =>
    match _h : if inWord then none else calledName? (c :: cs) with
    | some (w, rest) => nameTag ++ w ++ '(' :: tagNames false rest
    | none => c :: tagNames (isWordChar c) cs
termination_by cs => cs.length
decreasing_by
  · cases inWord with
    | true => simp at _h
    | false => exact length_calledName? (by simpa using _h)
  · simp

/-- Removes the tags. -/
def untagNames : List Char → List Char
  | [] => []
  | c :: cs =>
    match _h : taggedName? (c :: cs) with
    | some (w, rest) => w ++ '(' :: untagNames rest
    | none => c :: untagNames cs
termination_by cs => cs.length
decreasing_by
  · exact length_taggedName? _h
  · simp

/-! ## Filler words -/

/-- The words that carry no mathematics. -/
def fillerWords : List String :=
  ["solve", "solution", "sum", "answer", "for", "the", "equation", "find", "roots", "root", "of",
    "approximate", "calculate", "compute", "differentiate", "derivative", "integrate", "integral",
    "limit", "evaluate", "simplify", "summation", "with respect to", "what is", "is", "a", "an", "to"]

/-- What follows a filler word at the start of a text, if the word ends there. -/
def afterFiller? (cs : List Char) : Option (List Char) :=
  fillerWords.findSome? fun w =>
    (dropWord? w.toList cs).filter fun rest => !(rest.head?.any isWordChar)

theorem fillerWords_length_pos : ∀ w ∈ fillerWords, 0 < w.toList.length := by decide

theorem length_afterFiller? {cs rest : List Char} (h : afterFiller? cs = some rest) :
    rest.length < cs.length := by
  unfold afterFiller? at h
  obtain ⟨w, hw, hf⟩ := List.exists_of_findSome?_eq_some h
  have hd := dropWord?_length (Option.filter_eq_some_iff.1 hf).1
  have := fillerWords_length_pos w hw
  omega

/-- Removes the filler words. `inWord` says whether a word character stands before the text, so that no word
begins here. -/
def dropFillers (inWord : Bool) : List Char → List Char
  | [] => []
  | c :: cs =>
    match _h : if inWord then none else afterFiller? (c :: cs) with
    | some rest => dropFillers true rest
    | none => c :: dropFillers (isWordChar c) cs
termination_by cs => cs.length
decreasing_by
  · cases inWord with
    | true => simp at _h
    | false => exact length_afterFiller? (by simpa using _h)
  · simp

/-! ## Multiplication signs -/

/-- Whether a product ends with the first character and goes on with the second one. -/
def meetsFactor (c d : Char) : Bool :=
  (isDecimalDigit c || c = ')') && (isLetter d || d = '(')

/-- Whether one parenthesis closes and the next one opens. -/
def meetsParenthesis (c d : Char) : Bool := c = ')' && d = '('

/-- Writes a multiplication sign between neighbours that meet as given. -/
def writeProducts (meets : Char → Char → Bool) : List Char → List Char
  | [] => []
  | c :: cs =>
    if cs.head?.any (meets c) then c :: '*' :: writeProducts meets cs
    else c :: writeProducts meets cs

/-! ## Passes -/

/-- One pass over a text. -/
def pass (cs : List Char) : List Char :=
  let plain := Text.lower ((Text.trim cs).flatMap plainChar)
  let tagged := tagNames false (markEuler false (renameLog plain))
  let joined := writeProducts meetsParenthesis (writeProducts meetsFactor (dropFillers false tagged))
  untagNames (joined.filter fun c => !isBlank c)

/-- Repeats the pass until nothing changes, a given number of times at most. -/
def settle : Nat → List Char → List Char
  | 0, cs => cs
  | n + 1, cs =>
    let next := pass cs
    if next = cs then cs else settle n next

/-- The largest number of passes after the first one. -/
def maxPasses : Nat := 32

/-- The normal form of a text, as characters. -/
def normalChars (cs : List Char) : List Char := settle maxPasses (pass cs)

/-- The normal form of a text. -/
def normalForm (s : String) : String := String.ofList (normalChars s.toList)

end SymbolicSolver.Query
