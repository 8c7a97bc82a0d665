import ActionGrammar.Grammar.Dump
import ActionGrammar.Parse.Event
import ActionGrammar.Value.Printer

/-! # Traces

A trace shows the events of a parse as lines, indented by how deep
nonterminals nest. Events about symbols that the grammar does not have show a
question mark.
-/

namespace ActionGrammar

/-- Escape sequences by role. Without colors all are empty. -/
structure Colors where
  nonTerminal : String
  token : String
  failure : String
  position : String
  reset : String

namespace Colors

def on : Colors := ⟨"\x1b[34m", "\x1b[32m", "\x1b[31m", "\x1b[2m", "\x1b[0m"⟩

def off : Colors := ⟨"", "", "", "", ""⟩

def ofBool (enabled : Bool) : Colors := if enabled then on else off

end Colors

inductive Verbosity where
  /-- Nonterminals, reductions and backtracking. -/
  | standard
  /-- Attempts and tests of tokens, too. -/
  | verbose
  /-- The values of reductions, too. -/
  | veryVerbose
  deriving DecidableEq, Repr

namespace Trace

variable {π τ : Type}

structure Printer (π τ : Type) where
  grammar : Grammar π τ
  verbosity : Verbosity
  colors : Colors

/-- The lines so far, the latest first, and how deep the next one is indented. -/
structure Page where
  depth : Nat
  lines : List String

def Page.empty : Page := ⟨0, []⟩

def Page.push (page : Page) (mark content : String) : Page :=
  { page with
    lines := (String.join (List.replicate page.depth "  ") ++ mark ++ " " ++ content) ::
      page.lines }

def orUnknown {ε : Type} (name : Except ε String) : String :=
  match name with
  | .ok n => n
  | .error _ => "?"

namespace Printer

def nonTerminalName (t : Printer π τ) (nt : NonTerminal) : String :=
  orUnknown (t.grammar.nonTerminalName nt)

def terminalName (t : Printer π τ) (id : Terminal.Id) : String :=
  orUnknown ((t.grammar.terminal id).map (·.name))

def production (t : Printer π τ) (nt : NonTerminal) (index : Nat) : String :=
  match t.grammar.rules nt with
  | .ok rules => (rules[index]?).elim "?" fun rule => orUnknown (t.grammar.production nt rule)
  | .error _ => "?"

def place (t : Printer π τ) (position : Nat) : String :=
  " " ++ t.colors.position ++ "@" ++ toString position ++ t.colors.reset

def painted (t : Printer π τ) (color text : String) : String := color ++ text ++ t.colors.reset

def step (t : Printer π τ) (page : Page) : Event → Page
  | .enter nt p =>
    let page := page.push "▶" (t.painted t.colors.nonTerminal (t.nonTerminalName nt) ++ t.place p)
    { page with depth := page.depth + 1 }
  | .attempt nt index p =>
    if t.verbosity == .standard then page else page.push "?" (t.production nt index ++ t.place p)
  | .shift id p =>
    if t.verbosity == .standard then page
    else page.push "●" (t.painted t.colors.token (t.terminalName id) ++ t.place p)
  | .mismatch id p =>
    if t.verbosity == .standard then page else page.push "○" (t.terminalName id ++ t.place p)
  | .backtrack nt index p => page.push "↺" (t.production nt index ++ t.place p)
  | .reduce nt index v =>
    page.push "◆" <|
      if t.verbosity == .veryVerbose then t.production nt index ++ " = " ++ v.describe
      else t.production nt index
  | .exit nt matched p =>
    let page := { page with depth := page.depth - 1 }
    let (mark, color) := if matched then ("◀", t.colors.nonTerminal) else ("✗", t.colors.failure)
    page.push mark (t.painted color (t.nonTerminalName nt) ++ t.place p)

def lines (t : Printer π τ) (events : List Event) : List String :=
  (events.foldl t.step .empty).lines.reverse

def output (t : Printer π τ) (events : List Event) : String := "\n".intercalate (t.lines events)

end Printer

end Trace

end ActionGrammar
