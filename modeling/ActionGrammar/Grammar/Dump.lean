import ActionGrammar.Grammar.Basic
import ActionGrammar.Text.DottedName

/-! # The text of a grammar

A grammar is written in the notation that grammar text is read in, one rule a
line and the start first.
-/

namespace ActionGrammar.Grammar

variable {π τ : Type}

def symbolText (name : String) : String :=
  if DottedName.isIdentifier name.toList then name else "'" ++ name ++ "'"

def production (g : Grammar π τ) (nt : NonTerminal) (rule : Rule π) :
    Except HandleFault String := do
  let name ← g.nonTerminalName nt
  let symbols ← rule.symbols.mapM g.symbolName
  return name ++ " :" ++ String.join (symbols.map fun s => " " ++ symbolText s)

def actionText (action : List (Resolved π)) : String :=
  " \x7b" ++ String.join (action.map fun e => " " ++ e.text ++ ";") ++ " \x7d"

def ruleText (g : Grammar π τ) (nt : NonTerminal) (rule : Rule π) : Except HandleFault String := do
  return (← g.production nt rule) ++ actionText rule.action ++ "\n"

def rulesText (g : Grammar π τ) (nt : NonTerminal) : Except HandleFault String := do
  return String.join (← (← g.rules nt).mapM (g.ruleText nt))

def dump (g : Grammar π τ) : Except HandleFault String := do
  let others := g.allNonTerminals.filter (· != g.start)
  return String.join (← (g.start :: others).mapM g.rulesText)

end ActionGrammar.Grammar
