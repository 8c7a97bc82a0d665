import ActionGrammar.Diagnostic.Basic
import ActionGrammar.Grammar.Error
import ActionGrammar.Parse.Error
import ActionGrammar.Token

/-! # Failures of a language

Whatever may go wrong between grammar text and the value of an input.
-/

namespace ActionGrammar

inductive Error where
  | malformed (d : Diagnostic)
  | grammar (cause : GrammarError)
  | lex (cause : LexError)
  | parse (cause : ParseError)
  | resultType (expected found : String)
  deriving DecidableEq, Repr

def Error.message : Error → String
  | malformed d => "invalid grammar text: " ++ d.summary
  | grammar cause => cause.message
  | lex cause => cause.message
  | parse cause => cause.message
  | resultType expected found => s!"parse result is {found}, expected {expected}"

end ActionGrammar
