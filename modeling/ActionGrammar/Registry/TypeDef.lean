import ActionGrammar.Registry.Overload
import ActionGrammar.Text.DottedName

/-! # Registered types

A type has a place in its module, constructors, methods by name, and possibly
a kind of values that represents its instances. Every group of methods carries
that kind as its receiver.
-/

namespace ActionGrammar

/-- A top-level type, and from there the names of nested types. -/
structure TypePath where
  top : String
  nested : List String
  deriving DecidableEq, Repr

namespace TypePath

def fullName (p : TypePath) : String := DottedName.join (p.top :: p.nested)

def child (p : TypePath) (name : String) : TypePath := { p with nested := p.nested ++ [name] }

end TypePath

structure TypeDef (π : Type) where
  path : TypePath
  repr : Option ValueKind
  constructors : MethodGroup π
  methods : List (String × MethodGroup π)

namespace TypeDef

variable {π : Type}

def new (path : TypePath) : TypeDef π := ⟨path, none, ⟨path.fullName, none, []⟩, []⟩

def name (d : TypeDef π) : String := d.path.fullName

def method? (d : TypeDef π) (name : String) : Option (MethodGroup π) := d.methods.lookup name

/-- Methods registered before the representation was set take it as their receiver, too. -/
def setRepr (d : TypeDef π) (k : ValueKind) : TypeDef π :=
  { d with
    repr := some k
    methods := d.methods.map fun (name, g) => (name, { g with receiver := some k }) }

def addConstructor (d : TypeDef π) (o : Overload π) : TypeDef π :=
  { d with constructors := d.constructors.push o }

def addMethod (d : TypeDef π) (name : String) (o : Overload π) : TypeDef π :=
  if d.methods.any (·.1 == name) then
    { d with
      methods := d.methods.map fun (n, g) => if n == name then (n, g.push o) else (n, g) }
  else
    { d with methods := d.methods ++ [(name, ⟨d.name ++ "." ++ name, d.repr, [o]⟩)] }

end TypeDef

end ActionGrammar
