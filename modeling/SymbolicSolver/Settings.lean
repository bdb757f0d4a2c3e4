/-!
# Settings

How answers are shown and how far the numeric and summation methods go. Settings start from their defaults,
may be read from the environment, and are validated before use.
-/

namespace SymbolicSolver

/-- The settings of a solver. -/
structure Settings where
  /-- Significant digits of numbers in answers. -/
  precision : Nat
  /-- Decimal places to which numeric roots are rounded. -/
  rootDigits : Nat
  /-- Below this imaginary part a numeric root counts as real. -/
  imaginaryTolerance : Float
  /-- Whether roots with a negligible imaginary part are shown as real ones. -/
  realOnly : Bool
  /-- Starting points of the numeric search. -/
  seeds : List Float
  /-- The largest number of Newton steps from a starting point. -/
  newtonSteps : Nat
  /-- Finite sums with more terms go by closed forms. -/
  maxSumTerms : Nat

namespace Settings

/-- The default settings. -/
def default : Settings where
  precision := 15
  rootDigits := 12
  imaginaryTolerance := 1e-12
  realOnly := true
  seeds := [-10, -5, -3, -2, -1, 0, 1, 2, 3, 5, 10]
  newtonSteps := 100
  maxSumTerms := 10000

/-- The largest precision, beyond which a float has no more digits. -/
def maxPrecision : Nat := 17

/-- The largest number of decimal places of roots. -/
def maxRootDigits : Nat := 15

/-! ## Validation -/

/-- Why settings are refused. -/
inductive Problem where
  | precisionOutOfRange
  | tooManyRootDigits
  | toleranceNotPositive
  | noSeed
  | noNewtonStep

/-- The message of a refusal. -/
def Problem.message : Problem → String
  | precisionOutOfRange => "precision doit être dans 1..=" ++ toString maxPrecision
  | tooManyRootDigits => "chiffres_racines doit être <= " ++ toString maxRootDigits
  | toleranceNotPositive => "tolerance_imaginaire doit être > 0"
  | noSeed => "au moins une graine Newton"
  | noNewtonStep => "iterations_newton doit être > 0"

/-- The first thing that is wrong with the settings. -/
def problem? (s : Settings) : Option Problem :=
  if s.precision = 0 ∨ maxPrecision < s.precision then some .precisionOutOfRange
  else if maxRootDigits < s.rootDigits then some .tooManyRootDigits
  else if !(s.imaginaryTolerance > 0) then some .toleranceNotPositive
  else if s.seeds.isEmpty then some .noSeed
  else if s.newtonSteps = 0 then some .noNewtonStep
  else none

/-- The settings, if nothing is wrong with them. -/
def validated (s : Settings) : Except Problem Settings :=
  match s.problem? with
  | some p => .error p
  | none => .ok s

/-! ## Environment -/

/-- The largest machine word. -/
def maxWord : Nat := 18446744073709551615

/-- Reads a machine word: an optional plus sign and decimal digits, and nothing else. -/
def readWord? (s : String) : Option Nat :=
  let ds := match s.toList with
    | '+' :: ds => ds
    | ds => ds
  if ds ≠ [] && ds.all Char.isDigit then
    let n := ds.foldl (fun n c => 10 * n + (c.toNat - '0'.toNat)) 0
    if n ≤ maxWord then some n else none
  else none

/-- The defaults with the overrides that the environment holds; values that cannot be read are ignored. -/
def ofEnvironment (lookup : String → Option String) : Settings :=
  let read (name : String) (dflt : Nat) : Nat := ((lookup name).bind readWord?).getD dflt
  { default with
    precision := read "QPUR_PRECISION" default.precision
    rootDigits := read "QPUR_CHIFFRES_RACINES" default.rootDigits
    maxSumTerms := read "QPUR_MAX_TERMES_SOMME" default.maxSumTerms }

end Settings

end SymbolicSolver
