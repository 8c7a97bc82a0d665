/-! # Limits of a parse

A parse may be given fuel, which every entered nonterminal and every tested
terminal takes one unit of, and it is bounded in how deep nonterminals nest.
Limits are read from a table or a sequence of settings, in which absent ones
keep their defaults.
-/

namespace ActionGrammar

structure Limits where
  /-- Without fuel the number of steps is not bounded. -/
  fuel : Option UInt32
  recursion : UInt32
  deriving DecidableEq, Repr

inductive Setting where
  | null
  | count (n : Nat)
  | other

/-- How limits are written: named settings, settings in order, or neither. -/
inductive Settings where
  | table (entries : List (String × Setting))
  | sequence (entries : List Setting)
  | other

namespace Limits

def standard : Limits := ⟨none, 1024⟩

def fuelName : String := "exec_fuel"

def recursionName : String := "recursion_limit"

def readCount? : Setting → Option UInt32
  | .count n => if n < UInt32.size then some n.toUInt32 else none
  | _ => none

def readFuel? : Setting → Option (Option UInt32)
  | .null => some none
  | s => (readCount? s).map some

def readEntry? (l : Limits) : String × Setting → Option Limits
  | (name, s) =>
    if name == fuelName then (readFuel? s).map fun f => { l with fuel := f }
    else if name == recursionName then (readCount? s).map fun n => { l with recursion := n }
    else some l

def read? : Settings → Option Limits
  | .table entries => entries.foldlM readEntry? standard
  | .sequence [] => some standard
  | .sequence [f] => (readFuel? f).map fun f => { standard with fuel := f }
  | .sequence [f, r] => do return ⟨← readFuel? f, ← readCount? r⟩
  | _ => none

def text (l : Limits) : String :=
  "\x7b\"" ++ fuelName ++ "\":" ++ l.fuel.elim "null" (fun n => toString n.toNat) ++
    ",\"" ++ recursionName ++ "\":" ++ toString l.recursion.toNat ++ "\x7d"

end Limits

end ActionGrammar
