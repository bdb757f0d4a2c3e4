import SymbolicSolver.Reply

/-!
# The command line

Every argument is a query, and every answer a line of output. Settings come from the environment; invalid ones
are reported and nothing is answered.
-/

namespace SymbolicSolver.CommandLine

/-- What a run prints and the code with which it ends. -/
structure Output where
  stdout : String
  stderr : String
  code : UInt32

/-- A run with the given environment and arguments. -/
def run (lookup : String → Option String) (args : List String) : Output :=
  match (Settings.ofEnvironment lookup).validated with
  | .error p => ⟨"", "configuration invalide: " ++ p.message ++ "\n", 1⟩
  | .ok settings =>
    ⟨String.join (args.map fun q => (Reply.ofText settings q).answer ++ "\n"), "", 0⟩

end SymbolicSolver.CommandLine
