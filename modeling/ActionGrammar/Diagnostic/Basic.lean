/-! # Diagnostics

A diagnostic says what is wrong with a stretch of a text, given by byte
positions.
-/

namespace ActionGrammar

structure Diagnostic where
  message : String
  start : Nat
  stop : Nat
  deriving DecidableEq, Repr

def Diagnostic.summary (d : Diagnostic) : String :=
  s!"error at {d.start}..{d.stop}: {d.message}"

end ActionGrammar
