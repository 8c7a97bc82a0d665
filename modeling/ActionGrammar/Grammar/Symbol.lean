/-! # Symbols

Terminals and nonterminals are numbered in the order of their registration,
however many there are. Terminal zero is the empty string, which no token matches.
-/

namespace ActionGrammar

def emptyStringName : String := "_empty_string_"

structure Terminal.Id where
  index : Nat
  deriving DecidableEq, Repr

structure NonTerminal where
  index : Nat
  deriving DecidableEq, Repr

inductive Symbol where
  | terminal (id : Terminal.Id)
  | nonTerminal (nt : NonTerminal)
  deriving DecidableEq, Repr

def Symbol.isEmptyString (s : Symbol) : Bool := s == .terminal ⟨0⟩

/-- A symbol was looked up in a grammar that has only `count` symbols of its sort. -/
inductive HandleFault where
  | terminal (id : Terminal.Id) (count : Nat)
  | nonTerminal (nt : NonTerminal) (count : Nat)
  deriving DecidableEq, Repr

def HandleFault.message : HandleFault → String
  | terminal id count => text "terminal" id.index count
  | nonTerminal nt count => text "non-terminal" nt.index count
where
  text (sort : String) (index count : Nat) : String :=
    "Grammar: " ++ sort ++ " #" ++ toString index ++ " out of range (" ++ toString count ++
      " declared; handles must come from the same grammar)"

end ActionGrammar
