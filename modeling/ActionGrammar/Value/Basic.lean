/-! # Values

Values are what tokens carry and what rule actions take and yield. An object
is a handle on a payload of the embedding program: copies of the handle share
the payload, and two objects are equal when they are the same object.
-/

namespace ActionGrammar

/-- A type of payloads. It is known by its name, so two types never share one. -/
structure NativeType where
  name : String
  deriving DecidableEq, Repr

structure Object where
  id : Nat
  type : NativeType
  deriving DecidableEq, Repr

/-- `null` stands for an absent payload: a token without a value, or the empty string. -/
inductive Value where
  | null
  | bool (b : Bool)
  | int (n : Int64)
  | double (x : Float)
  | str (s : String)
  | object (o : Object)
  deriving DecidableEq

instance : Inhabited Value := ⟨.null⟩

namespace Value

def isNull : Value → Bool
  | null => true
  | _ => false

def asBool? : Value → Option Bool
  | bool b => some b
  | _ => none

def asInt? : Value → Option Int64
  | int n => some n
  | _ => none

def asDouble? : Value → Option Float
  | double x => some x
  | _ => none

def asStr? : Value → Option String
  | str s => some s
  | _ => none

def asObject? : Value → Option Object
  | object o => some o
  | _ => none

def typeName : Value → String
  | null => "null"
  | bool _ => "bool"
  | int _ => "int"
  | double _ => "double"
  | str _ => "string"
  | object o => o.type.name

/-- Doubles compare as numbers, so a NaN agrees with nothing, and objects by identity. -/
def agrees : Value → Value → Bool
  | null, null => true
  | bool a, bool b => a == b
  | int a, int b => a == b
  | double a, double b => a == b
  | str a, str b => a == b
  | object a, object b => a.id == b.id
  | _, _ => false

end Value

end ActionGrammar
