import ActionGrammar.Expr.Eval
import ActionGrammar.Grammar.Symbol

/-! # Failures of a parse -/

namespace ActionGrammar

inductive ParseError where
  /-- No rule of the start matches. The position is the furthest at which a terminal was tested. -/
  | notGenerated (position : Nat)
  /-- The start matches only what comes before the position. -/
  | trailingTokens (position furthest : Nat)
  /-- Two rules of a nonterminal match from the same position. -/
  | ambiguous (nonTerminal first second : String) (position : Nat)
  | eval (cause : EvalError)
  | fuelExhausted (limit : UInt32)
  | recursionLimitExceeded (limit : UInt32)
  | fault (cause : HandleFault)
  deriving DecidableEq, Repr

def ParseError.message : ParseError → String
  | notGenerated p => s!"input is not generated by the grammar (failed at token {p})"
  | trailingTokens p _ => s!"unexpected trailing input at token {p}"
  | ambiguous _ first second p =>
    "ambiguous grammar: `" ++ first ++ "` and `" ++ second ++ "` both match at token " ++ toString p
  | eval cause => cause.message
  | fuelExhausted limit => "parse step limit of " ++ toString limit.toNat ++ " exceeded"
  | recursionLimitExceeded limit => "recursion limit of " ++ toString limit.toNat ++ " exceeded"
  | fault cause => cause.message

end ActionGrammar
