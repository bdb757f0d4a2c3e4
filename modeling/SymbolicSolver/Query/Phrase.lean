import SymbolicSolver.Text.Digit
import SymbolicSolver.Text.Search
import SymbolicSolver.Token

/-!
# Phrases

The phrases that ask for a sum, a derivative, an integral or a limit. A phrase may begin anywhere in the text;
the first place at which one can be read counts. Texts are given in lower case.
-/

namespace SymbolicSolver.Query

open Text (isBlank isDecimalDigit after? afterBlanks? trimStart firstMatch? firstLine)
open Token (isLetter)

/-! ## Sums -/

/-- A request for a sum: the index, the texts of its bounds, and the summand. -/
structure SumPhrase where
  index : String
  lower : String
  upper : String
  summand : String

/-- A whole number, as text, in the digits of any script, and what follows it. -/
def wholeNumber? (cs : List Char) : Option (List Char × List Char) :=
  let (sign, rest) := match cs with
    | '-' :: rest => (['-'], rest)
    | rest => ([], rest)
  match rest.takeWhile isDecimalDigit with
  | [] => none
  | ds => some (sign ++ ds, rest.dropWhile isDecimalDigit)

/-- A bound of a sum: a whole number, or `inf`. -/
def upperBound? (cs : List Char) : Option (List Char × List Char) :=
  (wholeNumber? cs).or ((after? "inf" cs).map fun rest => ("inf".toList, rest))

/-- Skips an optional `of` or colon. -/
def skipOf (cs : List Char) : List Char :=
  ((after? "of" cs).or (after? ":" cs)).getD cs

/-- A sum phrase at the start of a text: `sum k from 1 to n of f`. -/
def sumHere? (cs : List Char) : Option SumPhrase := do
  let cs ← afterBlanks? (← after? "sum" cs)
  let index ← cs.head?
  if !isLetter index then none
  let cs ← after? "from" (← afterBlanks? cs.tail)
  let (lower, cs) ← wholeNumber? (trimStart cs)
  let cs ← after? "to" (trimStart cs)
  let (upper, cs) ← upperBound? (trimStart cs)
  let summand := firstLine (trimStart (skipOf (trimStart cs)))
  return ⟨String.singleton index, String.ofList lower, String.ofList upper, String.ofList summand⟩

/-- The sum phrase of a text. -/
def sumPhrase? (cs : List Char) : Option SumPhrase := firstMatch? sumHere? cs

/-! ## Derivatives and integrals -/

/-- What follows the first of several words that occurs, up to the end of the line. -/
def objectOf? (verbs : List String) (cs : List Char) : Option (List Char) :=
  firstMatch? (fun cs => (verbs.findSome? fun w => after? w cs).map fun rest =>
    firstLine (trimStart rest)) cs

/-- The variable of a text that reads `with respect to v` and nothing else. -/
def respectTo? (cs : List Char) : Option Char := do
  let cs ← after? "with" (trimStart cs)
  let cs ← after? "respect" (← afterBlanks? cs)
  let cs ← after? "to" (← afterBlanks? cs)
  match ← afterBlanks? cs with
  | v :: rest => if 'a' ≤ v && v ≤ 'z' && (trimStart rest).isEmpty then some v else none
  | [] => none

/-- Splits off a variable named at the end of a text. -/
def splitRespect? : List Char → Option (List Char × Char)
  | [] => none
  | c :: cs =>
    match respectTo? (c :: cs) with
    | some v => some ([], v)
    | none => (splitRespect? cs).map fun p => (c :: p.1, p.2)

/-- What is to be differentiated, and the variable if one is named. -/
def derivativePhrase? (cs : List Char) : Option (String × Option String) :=
  (objectOf? ["differentiate", "derivative"] cs).map fun rest =>
    match splitRespect? rest with
    | some (f, v) => (String.ofList f, some (String.singleton v))
    | none => (String.ofList rest, none)

/-- What is to be integrated. -/
def integralPhrase? (cs : List Char) : Option String :=
  (objectOf? ["integrate", "integral"] cs).map String.ofList

/-! ## Limits -/

/-- A request for a limit. -/
structure LimitPhrase where
  body : String
  index : String
  point : String

/-- The variable and the point of a text that begins `as x -> p`. -/
def approach? (cs : List Char) : Option (Char × List Char) := do
  match trimStart (← after? "as" (trimStart cs)) with
  | v :: rest =>
    if !isLetter v then none
    let rest ← after? "->" (trimStart rest)
    return (v, (trimStart rest).takeWhile fun c => !isBlank c)
  | [] => none

/-- Splits a line before the last place at which an approach can be read. -/
def splitApproach? : List Char → Option (List Char × Char × List Char)
  | [] => none
  | c :: cs =>
    match if c = '\n' then none else splitApproach? cs with
    | some p => some (c :: p.1, p.2)
    | none => (approach? (c :: cs)).map fun a => ([], a)

/-- A limit phrase at the start of a text: `limit f as x -> p`. -/
def limitHere? (cs : List Char) : Option LimitPhrase := do
  let (f, v, p) ← splitApproach? (trimStart (← after? "limit" cs))
  return ⟨String.ofList f, String.singleton v, String.ofList p⟩

/-- The limit phrase of a text. -/
def limitPhrase? (cs : List Char) : Option LimitPhrase := firstMatch? limitHere? cs

end SymbolicSolver.Query
