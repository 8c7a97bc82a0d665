import ActionGrammar.Grammar.Symbol
import ActionGrammar.Value.Basic

/-! # Events of a parse

What a parse does, step by step. Positions count tokens, and rules are
numbered within their nonterminal.
-/

namespace ActionGrammar

inductive Event where
  | enter (nt : NonTerminal) (position : Nat)
  | attempt (nt : NonTerminal) (rule position : Nat)
  | shift (terminal : Terminal.Id) (position : Nat)
  | mismatch (terminal : Terminal.Id) (position : Nat)
  /-- The rule failed and the parse returns to the position. -/
  | backtrack (nt : NonTerminal) (rule position : Nat)
  /-- The action of the rule yielded the value. -/
  | reduce (nt : NonTerminal) (rule : Nat) (value : Value)
  | exit (nt : NonTerminal) (matched : Bool) (position : Nat)
  deriving DecidableEq

end ActionGrammar
