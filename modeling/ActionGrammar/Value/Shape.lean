import ActionGrammar.Value.Store

/-! # Extraction

A caller asks for a value in some shape: any value at all, one of the primitive
types, or the payload of an object of one native type, which is copied out.
-/

namespace ActionGrammar

inductive Shape where
  | value
  | bool
  | int
  | double
  | str
  | native (t : NativeType)
  deriving DecidableEq, Repr

structure Target where
  shape : Shape
  label : String

def Target.ofNative (t : NativeType) : Target := ⟨.native t, t.name⟩

/-- What extraction yields: a value, or a copy of an object's payload. -/
inductive Extract (π : Type) where
  | value (v : Value)
  | payload (t : NativeType) (x : π)

namespace Value

variable {π : Type}

/-- Extraction while some payloads are lent out. A value as such is always at hand, and null
has no other shape. -/
def extractDuring? (held : List Loan) (s : Store π) : Shape → Value → Option (Extract π)
  | .value, v => some (.value v)
  | .bool, bool b => some (.value (bool b))
  | .int, int n => some (.value (int n))
  | .double, double x => some (.value (double x))
  | .str, str t => some (.value (str t))
  | .native t, v => (s.borrow? held .read t v).map fun (_, x) => .payload t x
  | _, _ => none

def extract? (s : Store π) (shape : Shape) (v : Value) : Option (Extract π) :=
  v.extractDuring? [] s shape

end Value

end ActionGrammar
