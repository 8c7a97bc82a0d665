import ActionGrammar.Error
import ActionGrammar.GrammarText.Grammar

/-! # Reading grammar text

Grammar text is read by the parser for its own grammar. A failure is told as a
diagnostic: the first stretch of garbage, the furthest token looked at, or the
whole text if a limit was exceeded.
-/

namespace ActionGrammar.GrammarText

def unknownToken (source : String) (t : Token) : Diagnostic :=
  ⟨"unknown token `" ++ t.text source ++ "`", t.start, t.stop⟩

def unexpected (source : String) (tokens : List Token) (furthest : Nat) : Diagnostic :=
  match tokens[furthest]? with
  | some t => ⟨"unexpected `" ++ t.text source ++ "`", t.start, t.stop⟩
  | none => ⟨"unexpected end of grammar text", source.utf8ByteSize, source.utf8ByteSize⟩

def explain (source : String) (tokens : List Token) : ParseError → Diagnostic
  | .notGenerated position => unexpected source tokens position
  | .trailingTokens _ furthest => unexpected source tokens furthest
  | e => ⟨e.message, 0, source.utf8ByteSize⟩

def read (types : PartTypes) (source : String) : Except Error GrammarDecl :=
  match (parser types : Except _ (Parser (Payload Empty) Token)) with
  | .error e => .error (.grammar e)
  | .ok p =>
    let tokens := lex source
    match firstGarbage? tokens with
    | some t => .error (.malformed (unknownToken source t))
    | none =>
      match (p.parse tokens.toArray).runFrom Store.empty with
      | (.error e, _) => .error (.malformed (explain source tokens e))
      | (.ok v, s) =>
        match Part.read? s types.grammar Part.asGrammar? v with
        | some d => .ok d
        | none => .error (.resultType types.grammar.name v.typeName)

end ActionGrammar.GrammarText
