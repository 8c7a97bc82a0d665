import ActionGrammar.Grammar.Dump
import ActionGrammar.Grammar.LeftRecursion
import ActionGrammar.Parse.Error
import ActionGrammar.Parse.Event
import ActionGrammar.Parse.Limits

/-! # Parsing by recursive descent

A nonterminal tries all of its rules from the same position, and a rule either
matches as a whole or leaves no mark on the position. Two rules that match are
an ambiguity, whatever they match. A rule that is the empty string alone counts
only where nothing else matches. Actions run as soon as their rule matches.
-/

namespace ActionGrammar

structure Run (π : Type) where
  cursor : Nat
  /-- The furthest position at which a terminal was tested. -/
  furthest : Nat
  /-- Nonterminals entered and terminals tested. -/
  steps : Nat
  store : Store π
  /-- The latest event comes first. -/
  events : List Event

abbrev Parsing (π α : Type) := Attempt (Run π) ParseError α

namespace Parsing

variable {π α : Type}

def ofLookup (r : Except HandleFault α) : Parsing π α := Attempt.ofExcept (r.mapError .fault)

def onStore (f : StateM (Store π) α) : Parsing π α :=
  Attempt.ofState fun run =>
    let (x, store) := f run.store
    (x, { run with store })

def onEffect (f : Effect π EvalError α) : Parsing π α := do
  let r ← onStore f.runFrom
  Attempt.ofExcept (r.mapError .eval)

def record (e : Event) : Parsing π Unit := modify fun run => { run with events := e :: run.events }

def cursor : Parsing π Nat := do return (← get).cursor

def moveTo (position : Nat) : Parsing π Unit := modify fun run => { run with cursor := position }

def burn (l : Limits) : Parsing π Unit := do
  let run ← get
  match l.fuel with
  | some fuel => if fuel.toNat ≤ run.steps then throw (.fuelExhausted fuel)
  | none => pure ()
  set { run with steps := run.steps + 1 }

end Parsing

/-- A grammar without left recursion, ready to parse. -/
structure Parser (π τ : Type) where
  grammar : Grammar π τ
  limits : Limits
  isChecked : LeftRecursion.check grammar = .ok ()

namespace Parser

open Parsing

variable {π τ : Type}

def new (g : Grammar π τ) : Except GrammarError (Parser π τ) :=
  match h : LeftRecursion.check g with
  | .ok () => .ok ⟨g, .standard, h⟩
  | .error e => .error e

def withLimits (p : Parser π τ) (l : Limits) : Parser π τ := { p with limits := l }

def reduce (nt : NonTerminal) (index : Nat) (rule : Rule π) (results : List Value) :
    Parsing π Value := do
  let v ← onEffect (Resolved.evalAction results rule.action)
  record (.reduce nt index v)
  return v

variable [Token τ] [TokenValue π τ]

/-- Tests the terminal at the cursor. A match moves the cursor on and yields the token's value. -/
def matchTerminal (p : Parser π τ) (tokens : Array τ) (id : Terminal.Id) :
    Parsing π (Option Value) := do
  burn p.limits
  let terminal ← ofLookup (p.grammar.terminal id)
  let here ← cursor
  modify fun run => { run with furthest := max run.furthest here }
  match tokens[here]? with
  | some token =>
    if terminal.isMatch token then
      record (.shift id here)
      let v ← onStore (TokenValue.value? token)
      moveTo (here + 1)
      return some (v.getD .null)
    else
      record (.mismatch id here)
      return none
  | none =>
    record (.mismatch id here)
    return none

/-- One result per symbol, null for the empty string. -/
def matchSymbols (p : Parser π τ) (tokens : Array τ)
    (expand : NonTerminal → Parsing π (Option Value)) :
    List Symbol → Parsing π (Option (List Value))
  | [] => return some []
  | s :: ss => do
    let result ←
      match s with
      | .terminal id =>
        if s.isEmptyString then pure (some .null) else p.matchTerminal tokens id
      | .nonTerminal nt => expand nt
    match result with
    | none => return none
    | some v => return (← p.matchSymbols tokens expand ss).map (v :: ·)

structure Match where
  rule : Nat
  stop : Nat
  value : Value

/-- What is known of a nonterminal after some of its rules: the one that matched, and the last
one that is the empty string alone. -/
structure Outcome where
  matched : Option Match
  epsilon : Option Nat

/-- Tries one rule from `start`, unless it is the empty string alone. -/
def tryRule (p : Parser π τ) (tokens : Array τ)
    (expand : NonTerminal → Parsing π (Option Value)) (nt : NonTerminal) (start : Nat)
    (rules : List (Rule π)) (outcome : Outcome) (index : Nat) (rule : Rule π) :
    Parsing π Outcome := do
  if rule.isEpsilon then return { outcome with epsilon := some index }
  moveTo start
  record (.attempt nt index start)
  match ← p.matchSymbols tokens expand rule.symbols with
  | none =>
    record (.backtrack nt index start)
    return outcome
  | some results =>
    let value ← reduce nt index rule results
    match outcome.matched with
    | none => return { outcome with matched := some ⟨index, ← cursor, value⟩ }
    | some earlier => do
      -- The earlier match is of one of the rules (`tryRules_lookup`), so its text is never missing.
      let name ← ofLookup (p.grammar.nonTerminalName nt)
      let first ← ofLookup ((rules[earlier.rule]?).elim (.ok "") (p.grammar.production nt))
      let second ← ofLookup (p.grammar.production nt rule)
      throw (.ambiguous name first second start)

def tryRules (p : Parser π τ) (tokens : Array τ)
    (expand : NonTerminal → Parsing π (Option Value)) (nt : NonTerminal) (start : Nat)
    (rules : List (Rule π)) : Outcome → List (Nat × Rule π) → Parsing π Outcome
  | outcome, [] => return outcome
  | outcome, (index, rule) :: rest => do
    let outcome ← p.tryRule tokens expand nt start rules outcome index rule
    p.tryRules tokens expand nt start rules outcome rest

/-- The value of the rule that matched, else of the one that is the empty string alone. The
cursor ends behind the match, or where it started. -/
def conclude (nt : NonTerminal) (start : Nat) (rules : List (Rule π)) (outcome : Outcome) :
    Parsing π (Option Value) := do
  match outcome.matched, outcome.epsilon with
  | some m, _ =>
    moveTo m.stop
    return some m.value
  | none, some index =>
    moveTo start
    match rules[index]? with
    | some rule => return some (← reduce nt index rule [])
    -- Does not happen: the index is that of one of the rules (`tryRules_lookup`).
    | none => return none
  | none, none =>
    moveTo start
    return none

/-- Expands a nonterminal at the cursor, with `room` for nested nonterminals. -/
def expand (p : Parser π τ) (tokens : Array τ) : (room : Nat) → NonTerminal →
    Parsing π (Option Value)
  | 0, _ => do
    burn p.limits
    throw (.recursionLimitExceeded p.limits.recursion)
  | room + 1, nt => do
    burn p.limits
    let start ← cursor
    record (.enter nt start)
    let rules ← ofLookup (p.grammar.rules nt)
    let indexed := (List.range rules.length).zip rules
    let outcome ← p.tryRules tokens (p.expand tokens room) nt start rules ⟨none, none⟩ indexed
    let result ← conclude nt start rules outcome
    record (.exit nt result.isSome (← cursor))
    return result

def parseTokens (p : Parser π τ) (tokens : Array τ) : Parsing π Value := do
  match ← p.expand tokens p.limits.recursion.toNat p.grammar.start with
  | none => throw (.notGenerated (← get).furthest)
  | some v =>
    let run ← get
    if run.cursor < tokens.size then throw (.trailingTokens run.cursor run.furthest)
    return v

/-- The result of parsing all of `tokens`, and the events from first to last. -/
def run (p : Parser π τ) (tokens : Array τ) :
    StateM (Store π) (Except ParseError Value × List Event) := fun store =>
  let (result, final) := (p.parseTokens tokens).runFrom ⟨0, 0, 0, store, []⟩
  ((result, final.events.reverse), final.store)

def parse (p : Parser π τ) (tokens : Array τ) : Effect π ParseError Value :=
  Attempt.ofOutcome do return (← p.run tokens).1

end Parser

end ActionGrammar
