import ActionGrammar.Value.Store

/-! # Tokens

A program that embeds grammars brings its own tokens and its own lexer. Two
tokens are compatible when they are of one kind, whatever values they carry.
-/

namespace ActionGrammar

class Token (τ : Type) where
  /-- Whether the second token is of the kind that the first stands for. -/
  compatible : τ → τ → Bool

/-- The value of a token, if it has one. Asking for it may create an object. -/
class TokenValue (π τ : Type) where
  value? : τ → StateM (Store π) (Option Value)

structure LexError where
  position : Nat
  deriving DecidableEq, Repr

def LexError.message (e : LexError) : String := s!"unknown token at position {e.position}"

abbrev Lexer (τ : Type) := String → Except LexError (Array τ)

end ActionGrammar
