import ActionGrammar.Expr.Basic

/-! # The text of an expression

`$i` is a result, `new T(…)` a construction, `static T.m(…)` a static call, and
`T.m(receiver, …)` a call on a receiver.
-/

namespace ActionGrammar.Expr

variable {κ : Type}

mutual

def print (name : κ → String) : Expr κ → String
  | .constant l => l.text
  | .result i => "$" ++ toString i
  | .construct t args => "new " ++ name t ++ "(" ++ ", ".intercalate (printAll name args) ++ ")"
  | .static m args => "static " ++ name m ++ "(" ++ ", ".intercalate (printAll name args) ++ ")"
  | .invoke m receiver args =>
    name m ++ "(" ++ ", ".intercalate (print name receiver :: printAll name args) ++ ")"

def printAll (name : κ → String) : List (Expr κ) → List String
  | [] => []
  | e :: es => print name e :: printAll name es

end

end ActionGrammar.Expr

namespace ActionGrammar.Template

def text (t : Template) : String := Expr.print id t

end ActionGrammar.Template
