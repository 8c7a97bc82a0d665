import ActionGrammar.Expr.Printer
import ActionGrammar.Grammar.Builder

/-! # Declared grammars

What grammar text says: a list of rules, of which the first one's nonterminal
is the start. A declared grammar is bound to terminals and to a registry by
staging its rules in a builder.
-/

namespace ActionGrammar

structure RuleDecl where
  nonTerminal : String
  symbols : List String
  action : List Template

structure GrammarDecl where
  rules : List RuleDecl
  start : Option String

namespace GrammarDecl

variable {τ : Type}

def empty : GrammarDecl := ⟨[], none⟩

def stageRules : List RuleDecl → Staging τ Unit
  | [] => pure ()
  | r :: rs => do
    Builder.registerRule r.nonTerminal r.symbols r.action
    stageRules rs

/-- Registers all rules and the start. Names that are not registered as terminals are taken for
nonterminals. -/
def stage (d : GrammarDecl) : Staging τ Unit := do
  stageRules d.rules
  match d.start with
  | some name => Builder.setStart name
  | none => pure ()

end GrammarDecl

end ActionGrammar
