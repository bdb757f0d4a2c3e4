import SymbolicSolver.CommandLine

/-!
# Program

Answers the queries given as arguments.
-/

open SymbolicSolver

/-- Looks a name up in a list of pairs. -/
def lookupIn (pairs : List (String × Option String)) (name : String) : Option String :=
  (pairs.find? fun p => p.1 = name).bind (·.2)

/-- Prints the answers to the arguments. -/
def main (args : List String) : IO UInt32 := do
  let names := ["QPUR_PRECISION", "QPUR_CHIFFRES_RACINES", "QPUR_MAX_TERMES_SOMME"]
  let pairs ← names.mapM fun n => return (n, ← IO.getEnv n)
  let out := CommandLine.run (lookupIn pairs) args
  IO.print out.stdout
  IO.eprint out.stderr
  return out.code
