/-!
# Errors

Every way in which reading, evaluating or solving can fail, and the message shown for it.
-/

namespace SymbolicSolver

/-- The cause of a failure. -/
inductive Error where
  | emptyInput
  | unexpectedChar (c : Char)
  | invalidNumber (text : String)
  | unclosedParenthesis
  | orphanParenthesis
  | tooDeep (limit : Nat)
  | invalidExpression
  | unknownFunction (name : String)
  | freeVariable (name : String)
  | undefined
  | exponentTooLarge
  | indeterminateLimit
  | numeric (detail : String)
  | internal (detail : String)
  deriving DecidableEq, Repr

namespace Error

/-- The message of a failure. -/
def message : Error → String
  | emptyInput => "entrée vide"
  | unexpectedChar c => "caractère inattendu: '" ++ String.singleton c ++ "'"
  | invalidNumber s => "nombre invalide: " ++ s
  | unclosedParenthesis => "parenthèses non fermées"
  | orphanParenthesis => "parenthèse fermante sans ouvrante"
  | tooDeep n => "imbrication trop profonde (max " ++ toString n ++ ")"
  | invalidExpression => "expression invalide"
  | unknownFunction s => "fonction inconnue: " ++ s
  | freeVariable s => "variable non évaluable: " ++ s
  | undefined => "valeur indéfinie"
  | exponentTooLarge => "exposant trop grand"
  | indeterminateLimit => "limite indéterminée"
  | numeric s => "évaluation numérique impossible: " ++ s
  | internal s => "erreur interne: " ++ s

/-- The failure that stands for an abandoned computation, with the text it left, if any. -/
def ofAbandoned (text? : Option String) : Error :=
  internal (text?.getD "panique")

end Error

end SymbolicSolver
