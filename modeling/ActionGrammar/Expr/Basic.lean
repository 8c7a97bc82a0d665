import ActionGrammar.Literal

/-! # Action expressions

An action is a list of expressions over the results of a rule's symbols. The
type of callees tells two stages apart: a template names what it calls, and a
resolved expression holds the overloads found under that name.
-/

namespace ActionGrammar

inductive Expr (κ : Type) where
  | constant (literal : Literal)
  /-- The result of a symbol of the rule, counted from zero. -/
  | result (index : Nat)
  | construct (type : κ) (args : List (Expr κ))
  | static (method : κ) (args : List (Expr κ))
  | invoke (method : κ) (receiver : Expr κ) (args : List (Expr κ))

instance {κ : Type} : Inhabited (Expr κ) := ⟨.result 0⟩

/-- An expression as written, which names its callees. -/
abbrev Template := Expr String

end ActionGrammar
