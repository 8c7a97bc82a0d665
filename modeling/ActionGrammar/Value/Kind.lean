import ActionGrammar.Value.Basic

/-! # Kinds of values

Parameters and receivers are declared with a kind. A null argument has the
kind `any`, which fits parameters of kind `any` and of native kinds.
-/

namespace ActionGrammar

inductive ValueKind where
  | any
  | bool
  | int
  | double
  | str
  | native (t : NativeType)
  deriving DecidableEq, Repr

namespace ValueKind

def ofValue : Value → ValueKind
  | .null => any
  | .bool _ => bool
  | .int _ => int
  | .double _ => double
  | .str _ => str
  | .object o => native o.type

/-- Whether an argument of the second kind may be passed for a parameter of the first. -/
def accepts : ValueKind → ValueKind → Bool
  | any, _ => true
  | native _, any => true
  | param, arg => param == arg

/-- Whether `v` may stand where this kind is declared: unlike for `accepts`, null only fits
`any`. -/
def admits (k : ValueKind) (v : Value) : Bool :=
  match k with
  | any => true
  | k => !v.isNull && k.accepts (ofValue v)

def label : ValueKind → String
  | any => "any"
  | bool => "bool"
  | int => "int"
  | double => "double"
  | str => "string"
  | native t => t.name

def describe? : ValueKind → Option String
  | any => some "Any"
  | bool => some "Bool"
  | int => some "Int"
  | double => some "Double"
  | str => some "Str"
  | native _ => none

def labels (ks : List ValueKind) : String := ", ".intercalate (ks.map label)

end ValueKind

end ActionGrammar
