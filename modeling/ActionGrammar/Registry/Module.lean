import ActionGrammar.Registry.TypeDef

/-! # Modules

A module is built from declarations of types and their members, in order. A
type may be declared again, which adds to it. A dotted name is looked up as a
top-level type, of the longest matching name, followed by nested types.
-/

namespace ActionGrammar

inductive Member (π : Type) where
  /-- Sets the kind of values that represents the type. -/
  | repr (kind : ValueKind)
  | creator (params : List ValueKind) (run : Args → Effect π InvokeError Value)
  | static (name : String) (params : List ValueKind) (run : Args → Effect π InvokeError Value)
  | method (name : String) (params : List ValueKind)
      (run : Value → Args → Effect π InvokeError Value)
  | nested (name : String) (members : List (Member π))

instance {π : Type} : Inhabited (Member π) := ⟨.repr .any⟩

structure TypeDecl (π : Type) where
  name : String
  members : List (Member π)

def TypeDecl.ofNative {π : Type} (name : String) (t : NativeType) (members : List (Member π)) :
    TypeDecl π :=
  ⟨name, .repr (.native t) :: members⟩

structure Module (π : Type) where
  name : String
  types : List (TypeDef π)

namespace Module

variable {π : Type}

def find? (m : Module π) (p : TypePath) : Option (TypeDef π) := m.types.find? (·.path == p)

def declare (m : Module π) (p : TypePath) : Module π :=
  if (m.find? p).isSome then m else { m with types := m.types ++ [.new p] }

def modify (m : Module π) (p : TypePath) (f : TypeDef π → TypeDef π) : Module π :=
  { m with types := m.types.map fun d => if d.path == p then f d else d }

/-- Types, nested types and methods may only be added under dotted names. -/
def requireName (name : String) : Except MalformedName Unit :=
  if DottedName.isWellFormed name then .ok () else .error ⟨name⟩

mutual

def addMember (p : TypePath) : Member π → Module π → Except MalformedName (Module π)
  | .repr k, m => .ok (m.modify p (·.setRepr k))
  | .creator params run, m => .ok (m.modify p (·.addConstructor ⟨params, .static run⟩))
  | .static name params run, m => do
    requireName name
    return m.modify p (·.addMethod name ⟨params, .static run⟩)
  | .method name params run, m => do
    requireName name
    return m.modify p (·.addMethod name ⟨params, .method run⟩)
  | .nested name members, m => do
    requireName name
    addMembers (p.child name) members (m.declare (p.child name))

def addMembers (p : TypePath) : List (Member π) → Module π → Except MalformedName (Module π)
  | [], m => .ok m
  | x :: xs, m => do addMembers p xs (← addMember p x m)

end

def addType (m : Module π) (d : TypeDecl π) : Except MalformedName (Module π) := do
  requireName d.name
  addMembers ⟨d.name, []⟩ d.members (m.declare ⟨d.name, []⟩)

def ofDecls (name : String) (decls : List (TypeDecl π)) : Except MalformedName (Module π) :=
  decls.foldlM addType ⟨name, []⟩

/-- The type under a dotted name, whose first `n` segments or fewer name a top-level type. -/
def resolve? (m : Module π) (segments : List String) : Nat → Option (TypeDef π)
  | 0 => none
  | n + 1 =>
    match m.find? ⟨DottedName.join (segments.take (n + 1)), segments.drop (n + 1)⟩ with
    | some d => some d
    | none => m.resolve? segments n

end Module

end ActionGrammar
