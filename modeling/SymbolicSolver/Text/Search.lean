import SymbolicSolver.Text.Blank

/-!
# Searching texts

Literal words at the start of a text and anywhere in it, on lists of characters.
-/

namespace SymbolicSolver.Text

/-- What follows a word at the start of a text. -/
def dropWord? : List Char → List Char → Option (List Char)
  | [], cs => some cs
  | _ :: _, [] => none
  | w :: ws, c :: cs => if w = c then dropWord? ws cs else none

/-- What follows the given string at the start of a text. -/
def after? (word : String) (cs : List Char) : Option (List Char) := dropWord? word.toList cs

/-- What follows at least one blank. -/
def afterBlanks? : List Char → Option (List Char)
  | [] => none
  | c :: cs => if isBlank c then some (trimStart cs) else none

/-- The first answer of a reader at a position of the text, from left to right. -/
def firstMatch? {α : Type} (read : List Char → Option α) : List Char → Option α
  | [] => read []
  | c :: cs =>
    match read (c :: cs) with
    | some x => some x
    | none => firstMatch? read cs

/-- Whether a string occurs in a text. -/
def containsWord (word : String) (cs : List Char) : Bool :=
  (firstMatch? (after? word) cs).isSome

/-- A text up to the end of its first line. -/
def firstLine (cs : List Char) : List Char := cs.takeWhile (· ≠ '\n')

/-- The parts before and after the first occurrence of a character. -/
def splitOnce? (sep : Char) : List Char → Option (List Char × List Char)
  | [] => none
  | c :: cs => if c = sep then some ([], cs) else (splitOnce? sep cs).map fun p => (c :: p.1, p.2)

/-- The words of a text, blanks being what separates them; `word` holds the letters read so far in reverse. -/
def wordsAfter (word : List Char) : List Char → List (List Char)
  | [] => if word = [] then [] else [word.reverse]
  | c :: cs =>
    if isBlank c then
      if word = [] then wordsAfter [] cs else word.reverse :: wordsAfter [] cs
    else wordsAfter (c :: word) cs

/-- The words of a text. -/
def words (cs : List Char) : List (List Char) := wordsAfter [] cs

end SymbolicSolver.Text
