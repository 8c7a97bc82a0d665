import ActionGrammar.Grammar.Basic
import ActionGrammar.Grammar.Error

/-! # Left recursion

A nonterminal is left-recursive if it can derive itself in front of whatever
remains. The walk follows the left edges of every rule: its symbols up to the
first one that does not derive the empty string. It remembers which
nonterminals derive the empty string, and a nonterminal met while it is being
walked closes a cycle.
-/

namespace ActionGrammar.LeftRecursion

variable {π τ : Type}

abbrev Known := List (NonTerminal × Bool)

abbrev Walk (α : Type) := Attempt Known GrammarError α

/-- The part of the path from `nt` on, closed by `nt`. The path has its innermost end first. -/
def cycleNames (g : Grammar π τ) (path : List NonTerminal) (nt : NonTerminal) :
    Except HandleFault (List String) :=
  (nt :: (path.takeWhile (· != nt)).reverse ++ [nt]).mapM g.nonTerminalName

def lift {α : Type} (r : Except HandleFault α) : Walk α := Attempt.ofExcept (r.mapError .fault)

def failWithCycle (g : Grammar π τ) (path : List NonTerminal) (nt : NonTerminal) : Walk Bool := do
  throw (.leftRecursion (← lift (cycleNames g path nt)))

/-- Whether all symbols derive the empty string. Symbols after the first that does not are not
looked at. -/
def walkSymbols (visit : NonTerminal → Walk Bool) : List Symbol → Walk Bool
  | [] => pure true
  | s :: ss => do
    let nullable ←
      match s with
      | .terminal _ => pure s.isEmptyString
      | .nonTerminal nt => visit nt
    if nullable then walkSymbols visit ss else return false

/-- Whether some rule derives the empty string. All rules are walked, for their left edges. -/
def walkRules (visit : NonTerminal → Walk Bool) : List (Rule π) → Walk Bool
  | [] => pure false
  | r :: rs => do
    let here ← walkSymbols visit r.symbols
    let there ← walkRules visit rs
    return here || there

/-- Whether `nt` derives the empty string. The path holds distinct nonterminals, so `room` for
all those not on it is never used up. -/
def visit (g : Grammar π τ) : (room : Nat) → (path : List NonTerminal) → NonTerminal → Walk Bool
  | room, path, nt => do
    match (← get).lookup nt with
    | some known => return known
    | none =>
      if path.contains nt then failWithCycle g path nt
      else
        let rules ← lift (g.rules nt)
        match room with
        | 0 => failWithCycle g path nt
        | room + 1 =>
          let nullable ← walkRules (visit g room (nt :: path)) rules
          modify ((nt, nullable) :: ·)
          return nullable

def walkAll (g : Grammar π τ) : List NonTerminal → Walk Unit
  | [] => pure ()
  | nt :: nts => do
    let _ ← visit g g.nonTerminals.size [] nt
    walkAll g nts

/-- Fails if any nonterminal is left-recursive, reachable or not. The start is walked first. -/
def check (g : Grammar π τ) : Except GrammarError Unit :=
  ((walkAll g (g.start :: g.allNonTerminals)).runFrom []).1

end ActionGrammar.LeftRecursion
