import ActionGrammar.Attempt
import ActionGrammar.Value.Basic

/-! # The object store

The payloads of all objects live in a store, under the objects' identities.
Whatever may create or change an object is an attempt over a store. While a
payload is lent out, a loan for reading excludes writers and a loan for writing
excludes everyone.
-/

namespace ActionGrammar

structure Store (π : Type) where
  cells : Array π

abbrev Effect (π ε α : Type) := Attempt (Store π) ε α

inductive Access where
  | read
  | write
  deriving DecidableEq, Repr

structure Loan where
  object : Object
  access : Access

def Loan.allows (l : Loan) (o : Object) (a : Access) : Bool :=
  l.object.id != o.id || (l.access == .read && a == .read)

namespace Store

variable {π : Type}

def empty : Store π := ⟨#[]⟩

def alloc (t : NativeType) (payload : π) : StateM (Store π) Value := fun s =>
  (.object ⟨s.cells.size, t⟩, ⟨s.cells.push payload⟩)

/-- The payload of `v` if `v` is an object of type `t` that no loan in `held` withholds. -/
def borrow? (s : Store π) (held : List Loan) (a : Access) (t : NativeType) :
    Value → Option (Object × π)
  | .object o =>
    if o.type = t && held.all (·.allows o a) then
      s.cells[o.id]?.map fun payload => (o, payload)
    else none
  | _ => none

def read? (s : Store π) (t : NativeType) (v : Value) : Option π :=
  (s.borrow? [] .read t v).map (·.2)

def write (s : Store π) (o : Object) (payload : π) : Store π :=
  ⟨s.cells.setIfInBounds o.id payload⟩

end Store

end ActionGrammar
