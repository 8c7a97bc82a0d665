import ActionGrammar.GrammarText.Lexer
import ActionGrammar.GrammarText.Part
import ActionGrammar.Parse.Engine

/-! # The grammar of grammar text

A grammar is one rule or more. A rule is a symbol, a colon, symbols, and an
action in braces, whose expressions end in semicolons. Expressions are
constructions, static calls, calls on a receiver, and literals.
-/

namespace ActionGrammar.GrammarText

def terminals : List (String × Kind) :=
  [("colon", .colon), ("semicolon", .semicolon), ("comma", .comma), ("lparen", .leftParen),
   ("rparen", .rightParen), ("lbrace", .leftBrace), ("rbrace", .rightBrace), ("dot", .dot),
   ("kw_new", .new), ("kw_static", .static), ("symbol", .symbol), ("string", .str),
   ("int", .int), ("double", .double), ("var", .result)]

def results (is : List Nat) : List Template := is.map .result

def construct (type : String) (args : List Nat) : Template := .construct type (results args)

def call (method : String) (args : List Nat) : Template := .static method (results args)

def invoke (method : String) (receiver : Nat) (args : List Nat) : Template :=
  .invoke method (.result receiver) (results args)

def rules : List RuleDecl :=
  [⟨"Grammar", ["Rule", "Grammar1"],
     [invoke "Meta.Definition.add_rule" 1 [0], invoke "Meta.Definition.set_start" 1 [0]]⟩,
   ⟨"Grammar1", ["Rule", "Grammar1"], [invoke "Meta.Definition.add_rule" 1 [0]]⟩,
   ⟨"Grammar1", [emptyStringName], [construct "Meta.Definition" []]⟩,
   ⟨"Rule", ["symbol", "colon", "Symbols", "lbrace", "Exprs", "rbrace"],
     [construct "Meta.Rule" [0, 2, 4]]⟩,
   ⟨"Symbols", ["symbol", "Symbols"], [invoke "Meta.Names.prepend" 1 [0]]⟩,
   ⟨"Symbols", [emptyStringName], [construct "Meta.Names" []]⟩,
   ⟨"Exprs", ["Expr", "semicolon", "Exprs"], [invoke "Meta.Exprs.prepend" 2 [0]]⟩,
   ⟨"Exprs", [emptyStringName], [construct "Meta.Exprs" []]⟩,
   ⟨"Expr", ["kw_new", "Name", "lparen", "Args", "rparen"],
     [call "Meta.Expr.construct" [1, 3]]⟩,
   ⟨"Expr", ["kw_static", "Name", "lparen", "Args", "rparen"], [call "Meta.Expr.call" [1, 3]]⟩,
   ⟨"Expr", ["Name", "lparen", "Expr", "ArgsTail", "rparen"],
     [call "Meta.Expr.invoke" [0, 2, 3]]⟩,
   ⟨"Expr", ["Literal"], results [0]⟩,
   ⟨"Name", ["symbol", "NameTail"], [invoke "Meta.Names.prepend" 1 [0]]⟩,
   ⟨"NameTail", ["dot", "symbol", "NameTail"], [invoke "Meta.Names.prepend" 2 [1]]⟩,
   ⟨"NameTail", [emptyStringName], [construct "Meta.Names" []]⟩,
   ⟨"Args", ["Expr", "ArgsTail"], [invoke "Meta.Exprs.prepend" 1 [0]]⟩,
   ⟨"Args", [emptyStringName], [construct "Meta.Exprs" []]⟩,
   ⟨"ArgsTail", ["comma", "Expr", "ArgsTail"], [invoke "Meta.Exprs.prepend" 2 [1]]⟩,
   ⟨"ArgsTail", [emptyStringName], [construct "Meta.Exprs" []]⟩,
   ⟨"Literal", ["var"], [call "Meta.Expr.variable" [0]]⟩,
   ⟨"Literal", ["string"], [call "Meta.Expr.constant" [0]]⟩,
   ⟨"Literal", ["int"], [call "Meta.Expr.constant" [0]]⟩,
   ⟨"Literal", ["double"], [call "Meta.Expr.constant" [0]]⟩]

def stageTerminals : List (String × Kind) → Staging Token Unit
  | [] => pure ()
  | (name, k) :: rest => do
    let _ ← Builder.registerTerminal name (Token.reference k)
    stageTerminals rest

def stage : Staging Token Unit := do
  stageTerminals terminals
  GrammarDecl.stageRules rules

variable {ν : Type}

def registry (types : PartTypes) : Except ResolveError (Registry (Payload ν)) :=
  match Part.library types with
  | .ok m => Registry.ofModules [m]
  | .error e => .error (.invalidName e.name)

def grammar (types : PartTypes) : Except GrammarError (Grammar (Payload ν) Token) :=
  match registry types with
  | .error e => .error (.resolve "Grammar" e)
  | .ok r => stage.build r

def parser (types : PartTypes) : Except GrammarError (Parser (Payload ν) Token) := do
  Parser.new (← grammar types)

end ActionGrammar.GrammarText
