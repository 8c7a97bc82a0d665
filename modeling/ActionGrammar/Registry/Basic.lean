import ActionGrammar.Registry.Module

/-! # Registries

A registry is a nonempty list of modules. Names are looked up in the modules
in order, and the first module that knows a name decides.
-/

namespace ActionGrammar

structure Registry (π : Type) where
  modules : List (Module π)

namespace Registry

variable {π : Type}

def ofModules (modules : List (Module π)) : Except ResolveError (Registry π) :=
  if modules.isEmpty then .error .noModules else .ok ⟨modules⟩

def findType (r : Registry π) (name : String) : Except ResolveError (TypeDef π) :=
  if DottedName.isWellFormed name then
    let segments := DottedName.split name
    match r.modules.findSome? (·.resolve? segments segments.length) with
    | some d => .ok d
    | none => .error (.typeNotFound name)
  else .error (.invalidName name)

def findMethodGroup (r : Registry π) (name : String) : Except ResolveError (MethodGroup π) :=
  if DottedName.isWellFormed name then
    match DottedName.splitMember? name with
    | none => .error (.methodNotFound name)
    | some (owner, member) => do
      match (← r.findType owner).method? member with
      | some g => .ok g
      | none => .error (.methodNotFound name)
  else .error (.invalidName name)

/-- One overload of a method. Without argument kinds it must be the only one. -/
def findMethod (r : Registry π) (name : String) (args : Option (List ValueKind)) :
    Except ResolveError (Overload π) := do
  let g ← r.findMethodGroup name
  match args, g.overloads with
  | some kinds, _ => g.selectAny kinds
  | none, [only] => .ok only
  | none, overloads => .error (.ambiguousOverload name none overloads.length)

def findConstructors (r : Registry π) (type : String) : Except ResolveError (MethodGroup π) := do
  let g := (← r.findType type).constructors
  if g.overloads.isEmpty then .error (.noConstructor type) else .ok g

def findConstructor (r : Registry π) (type : String) (args : List ValueKind) :
    Except ResolveError (Overload π) := do
  (← r.findConstructors type).select true args

def invokeMethod (r : Registry π) (name : String) (receiver : Option Value) (args : Args) :
    Effect π CallError Value :=
  match r.findMethodGroup name with
  | .ok g => g.invoke receiver args
  | .error e => throw (.resolve e)

def invokeConstructor (r : Registry π) (type : String) (args : Args) : Effect π CallError Value :=
  match r.findConstructors type with
  | .ok g => g.invoke none args
  | .error e => throw (.resolve e)

end Registry

end ActionGrammar
