import ActionGrammar.Grammar.Basic
import ActionGrammar.Grammar.Error

/-! # Building grammars

A builder collects terminals, nonterminals and rules. Rules name their
symbols, which may be registered later: names and actions are only resolved
when the grammar is built.
-/

namespace ActionGrammar

structure StagedRule where
  symbols : List String
  action : List Template

structure Builder (τ : Type) where
  /-- A terminal's number is its place here. -/
  terminals : List (String × Option τ)
  /-- A nonterminal's number is its place here. -/
  nonTerminals : List (String × List StagedRule)
  /-- Overrides the first nonterminal as the start. -/
  start : Option String

/-- A step of building. The builder survives a failed step. -/
abbrev Staging (τ α : Type) := Attempt (Builder τ) GrammarError α

namespace Builder

variable {τ : Type}

def empty : Builder τ := ⟨[(emptyStringName, none)], [], none⟩

def hasTerminal (b : Builder τ) (name : String) : Bool := b.terminals.any (·.1 == name)

def hasNonTerminal (b : Builder τ) (name : String) : Bool := b.nonTerminals.any (·.1 == name)

def terminalIndex? (b : Builder τ) (name : String) : Option Nat :=
  b.terminals.findIdx? (·.1 == name)

def nonTerminalIndex? (b : Builder τ) (name : String) : Option Nat :=
  b.nonTerminals.findIdx? (·.1 == name)

/-- The first terminal whose reference token is compatible with `token` in either direction. -/
def clash? [Token τ] (b : Builder τ) (token : τ) : Option String :=
  (b.terminals.find? fun (_, reference) =>
    reference.any fun t => Token.compatible t token || Token.compatible token t).map (·.1)

def registerTerminal [Token τ] (name : String) (token : τ) : Staging τ Terminal.Id := do
  let b ← get
  if b.hasTerminal name then throw (.duplicateTerminal name)
  if b.hasNonTerminal name then throw (.nameConflict name)
  if let some existing := b.clash? token then throw (.duplicateToken name existing)
  set { b with terminals := b.terminals ++ [(name, some token)] }
  return ⟨b.terminals.length⟩

/-- Registering a nonterminal again yields the same handle. -/
def registerNonTerminal (name : String) : Staging τ NonTerminal := do
  let b ← get
  if b.hasTerminal name then throw (.nameConflict name)
  match b.nonTerminalIndex? name with
  | some i => return ⟨i⟩
  | none =>
    set { b with nonTerminals := b.nonTerminals ++ [(name, [])] }
    return ⟨b.nonTerminals.length⟩

/-- Rules with the same symbols are kept apart. -/
def registerRule (nonTerminal : String) (symbols : List String) (action : List Template) :
    Staging τ Unit := do
  if symbols.isEmpty then throw (.emptyRule nonTerminal)
  if action.isEmpty then throw (.emptyAction nonTerminal)
  let nt ← registerNonTerminal nonTerminal
  modify fun b =>
    { b with
      nonTerminals := b.nonTerminals.modify nt.index fun (name, rules) =>
        (name, rules ++ [⟨symbols, action⟩]) }

def setStart (name : String) : Staging τ Unit := do
  if (← get).hasTerminal name then throw (.nameConflict name)
  modify fun b => { b with start := some name }

/-- Terminals take precedence, though no name is ever both. -/
def lookupSymbol (b : Builder τ) (nonTerminal name : String) : Except GrammarError Symbol :=
  match b.terminalIndex? name, b.nonTerminalIndex? name with
  | some i, _ => .ok (.terminal ⟨i⟩)
  | none, some i => .ok (.nonTerminal ⟨i⟩)
  | none, none => .error (.undefinedSymbol nonTerminal name)

variable {π : Type}

def finishRule (b : Builder τ) (r : Registry π) (nonTerminal : String) (rule : StagedRule) :
    Except GrammarError (Rule π) := do
  let symbols ← rule.symbols.mapM (b.lookupSymbol nonTerminal)
  match Template.resolveAll r rule.action with
  | .ok action => return ⟨symbols, action⟩
  | .error e => throw (.resolve nonTerminal e)

def finishRules (b : Builder τ) (r : Registry π) : String × List StagedRule →
    Except GrammarError (RuleSet π)
  | (name, rules) => do
    if rules.isEmpty then throw (.noRules name)
    return ⟨name, ← rules.mapM (b.finishRule r name)⟩

def build (b : Builder τ) (r : Registry π) : Except GrammarError (Grammar π τ) :=
  match b.nonTerminals with
  | [] => .error .emptyGrammar
  | (first, _) :: _ => do
    let startName := b.start.getD first
    match b.nonTerminalIndex? startName with
    | none => .error (.undefinedStart startName)
    | some start =>
      let nonTerminals ← b.nonTerminals.mapM (b.finishRules r)
      return {
        terminals := (b.terminals.map fun (name, token) => ⟨name, token⟩).toArray
        nonTerminals := nonTerminals.toArray
        start := ⟨start⟩ }

end Builder

def Staging.build {π τ α : Type} (steps : Staging τ α) (r : Registry π) :
    Except GrammarError (Grammar π τ) :=
  match steps.runFrom .empty with
  | (.ok _, b) => b.build r
  | (.error e, _) => .error e

end ActionGrammar
