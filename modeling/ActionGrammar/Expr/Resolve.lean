import ActionGrammar.Expr.Printer
import ActionGrammar.Registry.Basic

/-! # Resolution of templates

Resolving a template replaces every name by the overloads a registry has under
it. A method called in static form needs a static overload, and one called on a
receiver needs a method overload.
-/

namespace ActionGrammar

abbrev Resolved (π : Type) := Expr (MethodGroup π)

namespace Resolved

variable {π : Type}

def text (e : Resolved π) : String := Expr.print MethodGroup.name e

end Resolved

namespace Template

variable {π : Type}

def findMethods (r : Registry π) (name : String) (isStatic : Bool) :
    Except ResolveError (MethodGroup π) := do
  let g ← r.findMethodGroup name
  if g.has isStatic then .ok g else .error (.methodNotFound name)

mutual

/-- Callees are looked up before receivers, and receivers before arguments. -/
def resolve (r : Registry π) : Template → Except ResolveError (Resolved π)
  | .constant l => .ok (.constant l)
  | .result i => .ok (.result i)
  | .construct t args => do
    let g ← r.findConstructors t
    return .construct g (← resolveAll r args)
  | .static m args => do
    let g ← findMethods r m true
    return .static g (← resolveAll r args)
  | .invoke m receiver args => do
    let g ← findMethods r m false
    let receiver ← resolve r receiver
    return .invoke g receiver (← resolveAll r args)

def resolveAll (r : Registry π) : List Template → Except ResolveError (List (Resolved π))
  | [] => .ok []
  | t :: ts => do
    let e ← resolve r t
    return e :: (← resolveAll r ts)

end

end Template

end ActionGrammar
