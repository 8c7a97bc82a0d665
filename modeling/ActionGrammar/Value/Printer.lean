import ActionGrammar.Decimal.Notation
import ActionGrammar.Text.Quoted
import ActionGrammar.Value.Basic

/-! # The text of a value

Values as traces and descriptions show them: strings are quoted, and of an
object only the type is told.
-/

namespace ActionGrammar.Value

def describe : Value → String
  | null => "null"
  | bool b => toString b
  | int n => toString n.toInt
  | double x => Decimal.ofFloat x
  | str s => Quoted.encode s
  | object o => "<" ++ o.type.name ++ ">"

def describeAll (vs : List Value) : String :=
  "[" ++ ", ".intercalate (vs.map describe) ++ "]"

end ActionGrammar.Value
