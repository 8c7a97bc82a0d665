import ActionGrammar.Decimal.Notation
import ActionGrammar.Value.Basic

/-! # Literals

The constants that can be written in an action. In a printed string only the
quote is escaped.
-/

namespace ActionGrammar

inductive Literal where
  | int (n : Int64)
  | double (x : Float)
  | str (s : String)
  deriving DecidableEq

namespace Literal

def toValue : Literal → Value
  | int n => .int n
  | double x => .double x
  | str s => .str s

/-- Nulls, booleans and objects are no literals. -/
def ofValue? : Value → Option Literal
  | .int n => some (int n)
  | .double x => some (double x)
  | .str s => some (str s)
  | _ => none

def escapeQuotes : List Char → List Char
  | [] => []
  | c :: cs => if c = '"' then '\\' :: '"' :: escapeQuotes cs else c :: escapeQuotes cs

def quote (s : String) : String :=
  String.ofList ('"' :: escapeQuotes s.toList ++ ['"'])

def text : Literal → String
  | int n => toString n.toInt
  | double x => Decimal.ofFloat x
  | str s => quote s

end Literal

end ActionGrammar
