import ActionGrammar.GrammarText.Read
import ActionGrammar.Value.Shape

/-! # Languages

A language is given by grammar text, the terminals that the text may name, a
registry for its actions, and a lexer. Its inputs have values of one shape.
-/

namespace ActionGrammar

structure Language (π τ : Type) where
  lexer : Lexer τ
  parser : Parser π τ
  target : Target

namespace Language

variable {π τ : Type} [Token τ]

def stageTerminals : List (String × τ) → Staging τ Unit
  | [] => pure ()
  | (name, token) :: rest => do
    let _ ← Builder.registerTerminal name token
    stageTerminals rest

/-- The grammar that `text` describes over the terminals, with its actions resolved. -/
def readGrammar (types : PartTypes) (text : String) (terminals : List (String × τ))
    (r : Registry π) : Except Error (Grammar π τ) := do
  let d ← GrammarText.read types text
  let steps : Staging τ Unit := do
    stageTerminals terminals
    d.stage
  (steps.build r).mapError .grammar

def ofText (types : PartTypes) (text : String) (lexer : Lexer τ) (terminals : List (String × τ))
    (r : Registry π) (target : Target) : Except Error (Language π τ) := do
  let g ← readGrammar types text terminals r
  let parser ← (Parser.new g).mapError .grammar
  return ⟨lexer, parser, target⟩

def withLimits (l : Language π τ) (limits : Limits) : Language π τ :=
  { l with parser := l.parser.withLimits limits }

variable [TokenValue π τ]

/-- The value of an input, and the events of its parse. Text that has no tokens has no
events. -/
def parseTraced (l : Language π τ) (input : String) :
    StateM (Store π) (Except Error (Extract π) × List Event) := do
  match l.lexer input with
  | .error e => return (.error (.lex e), [])
  | .ok tokens =>
    let (result, events) ← l.parser.run tokens
    match result with
    | .error e => return (.error (.parse e), events)
    | .ok v =>
      match v.extract? (← get) l.target.shape with
      | some x => return (.ok x, events)
      | none => return (.error (.resultType l.target.label v.typeName), events)

def parse (l : Language π τ) (input : String) : Effect π Error (Extract π) :=
  Attempt.ofOutcome do return (← l.parseTraced input).1

def parse? (l : Language π τ) (input : String) : StateM (Store π) (Option (Extract π)) := do
  return (← l.parseTraced input).1.toOption

end Language

end ActionGrammar
