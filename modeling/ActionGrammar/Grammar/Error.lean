import ActionGrammar.Grammar.Symbol
import ActionGrammar.Registry.Error

/-! # Faults of a grammar -/

namespace ActionGrammar

inductive GrammarError where
  | duplicateTerminal (name : String)
  | duplicateToken (name existing : String)
  | nameConflict (name : String)
  | emptyRule (nonTerminal : String)
  | emptyAction (nonTerminal : String)
  | emptyGrammar
  | undefinedStart (name : String)
  | noRules (nonTerminal : String)
  | undefinedSymbol (nonTerminal symbol : String)
  | resolve (nonTerminal : String) (cause : ResolveError)
  /-- The cycle starts and ends with the same nonterminal. -/
  | leftRecursion (cycle : List String)
  | fault (cause : HandleFault)
  deriving DecidableEq, Repr

def GrammarError.message : GrammarError → String
  | duplicateTerminal n => s!"terminal `{n}` is already registered"
  | duplicateToken n existing =>
    s!"token of terminal `{n}` is indistinguishable from the token of `{existing}`"
  | nameConflict n => s!"`{n}` is used both as a terminal and as a non-terminal"
  | emptyRule n => s!"rule for `{n}` has no symbols"
  | emptyAction n => s!"rule for `{n}` has no action"
  | emptyGrammar => "grammar has no rules"
  | undefinedStart n => s!"start symbol `{n}` is not a non-terminal of this grammar"
  | noRules n => s!"non-terminal `{n}` has no rules"
  | undefinedSymbol n s => s!"rule for `{n}` uses undefined symbol `{s}`"
  | resolve n cause => "action of a `" ++ n ++ "` rule: " ++ cause.message
  | leftRecursion cycle => "left recursion: " ++ " -> ".intercalate cycle
  | fault cause => cause.message

end ActionGrammar
