import ActionGrammar.Literal
import ActionGrammar.Text.Bytes
import ActionGrammar.Token

/-! # Tokens of grammar text

Grammar text consists of marks, keywords, symbols, literals and references to
results. A token has a kind, the bytes it spans, and possibly a literal that it
stands for.
-/

namespace ActionGrammar.GrammarText

inductive Kind where
  | colon
  | semicolon
  | comma
  | leftParen
  | rightParen
  | leftBrace
  | rightBrace
  | dot
  | new
  | static
  /-- An identifier, or a single character between single quotes. -/
  | symbol
  /-- Text between double quotes, in which a backslash takes the next character along. -/
  | str
  | int
  | double
  /-- A dollar sign and a number: the result of a symbol. -/
  | result
  | blank
  /-- A stretch of text that holds no token. -/
  | garbage
  deriving DecidableEq, Repr

structure Token where
  kind : Kind
  start : Nat
  stop : Nat
  payload : Option Literal
  deriving DecidableEq

namespace Token

/-- A token that stands for all tokens of a kind. -/
def reference (k : Kind) : Token := ⟨k, 0, 0, none⟩

def garbage (start stop : Nat) : Token := ⟨.garbage, start, stop, none⟩

instance : ActionGrammar.Token Token where
  compatible a b := a.kind == b.kind

instance {π : Type} : TokenValue π Token where
  value? t := pure (t.payload.map Literal.toValue)

end Token

def Token.text (t : Token) (source : String) : String := textBetween source t.start t.stop

end ActionGrammar.GrammarText
