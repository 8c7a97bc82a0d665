import ActionGrammar.Value.Kind

/-! # Failures of resolution and of calls -/

namespace ActionGrammar

inductive ResolveError where
  | invalidName (name : String)
  | typeNotFound (name : String)
  | methodNotFound (name : String)
  | noConstructor (type : String)
  | noMatchingOverload (name : String) (args : List ValueKind)
  /-- Without argument kinds a method with several overloads is ambiguous by itself. -/
  | ambiguousOverload (name : String) (args : Option (List ValueKind)) (count : Nat)
  | noModules
  deriving DecidableEq, Repr

def ResolveError.message : ResolveError → String
  | invalidName n => s!"`{n}` is not a well-formed dotted name"
  | typeNotFound n => s!"type `{n}` not found in any module"
  | methodNotFound n => s!"method `{n}` not found"
  | noConstructor n => s!"type `{n}` has no constructors"
  | noMatchingOverload n ks =>
    "no overload of `" ++ n ++ "` accepts (" ++ ValueKind.labels ks ++ ")"
  | ambiguousOverload n ks count =>
    "call to `" ++ n ++ "` with (" ++ (ks.elim "unspecified" ValueKind.labels) ++
      ") matches " ++ toString count ++ " overloads"
  | noModules => "a registry needs at least one module"

inductive InvokeError where
  | argument (index : Nat) (expected : String)
  | receiver (expected : String)
  | failed (reason : String)
  deriving DecidableEq, Repr

def InvokeError.message : InvokeError → String
  | argument i expected => s!"argument {i} is not {expected}"
  | receiver expected => s!"receiver is not {expected}"
  | failed reason => reason

inductive CallError where
  | resolve (cause : ResolveError)
  | invoke (name : String) (cause : InvokeError)
  deriving DecidableEq, Repr

def CallError.message : CallError → String
  | resolve cause => cause.message
  | invoke n cause => "`" ++ n ++ "` failed: " ++ cause.message

structure MalformedName where
  name : String
  deriving DecidableEq, Repr

def MalformedName.message (e : MalformedName) : String :=
  s!"Registry: `{e.name}` is not a well-formed dotted name"

end ActionGrammar
