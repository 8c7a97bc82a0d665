import ActionGrammar.Expr.Eval
import ActionGrammar.Grammar.Symbol
import ActionGrammar.Token

/-! # Grammars

A grammar has terminals, each with a reference token, and nonterminals, each
with its rules. Looking up a symbol that the grammar does not have is a fault.
-/

namespace ActionGrammar

structure Terminal (τ : Type) where
  name : String
  /-- The tokens compatible with this one match the terminal. Only the empty string has none. -/
  token : Option τ

namespace Terminal

variable {τ : Type} [Token τ]

def isEmptyString (t : Terminal τ) : Bool := t.token.isNone

def isMatch (t : Terminal τ) (input : τ) : Bool :=
  t.token.any fun reference => Token.compatible reference input

end Terminal

structure Rule (π : Type) where
  symbols : List Symbol
  action : List (Resolved π)

/-- A rule that is the empty string alone. Its action runs on no results. -/
def Rule.isEpsilon {π : Type} (r : Rule π) : Bool :=
  match r.symbols with
  | [only] => only.isEmptyString
  | _ => false

structure RuleSet (π : Type) where
  name : String
  rules : List (Rule π)

structure Grammar (π τ : Type) where
  terminals : Array (Terminal τ)
  nonTerminals : Array (RuleSet π)
  start : NonTerminal

namespace Grammar

variable {π τ : Type}

def ruleSet (g : Grammar π τ) (nt : NonTerminal) : Except HandleFault (RuleSet π) :=
  match g.nonTerminals[nt.index]? with
  | some s => .ok s
  | none => .error (.nonTerminal nt g.nonTerminals.size)

def rules (g : Grammar π τ) (nt : NonTerminal) : Except HandleFault (List (Rule π)) := do
  return (← g.ruleSet nt).rules

def nonTerminalName (g : Grammar π τ) (nt : NonTerminal) : Except HandleFault String := do
  return (← g.ruleSet nt).name

def terminal (g : Grammar π τ) (id : Terminal.Id) : Except HandleFault (Terminal τ) :=
  match g.terminals[id.index]? with
  | some t => .ok t
  | none => .error (.terminal id g.terminals.size)

def symbolName (g : Grammar π τ) : Symbol → Except HandleFault String
  | .terminal id => do return (← g.terminal id).name
  | .nonTerminal nt => g.nonTerminalName nt

def allNonTerminals (g : Grammar π τ) : List NonTerminal :=
  (List.range g.nonTerminals.size).map (⟨·⟩)

def findNonTerminal? (g : Grammar π τ) (name : String) : Option NonTerminal :=
  (g.nonTerminals.findIdx? (·.name == name)).map (⟨·⟩)

end Grammar

end ActionGrammar
