import ActionGrammar.Proofs.Registry.Names

/-! # Receivers

The methods of a type take its representation as their receiver, whether the
representation was declared before them or after them. So a method that is found
is called on values that represent its owner.
-/

namespace ActionGrammar

variable {π : Type}

namespace TypeDef

/-- All methods take the representation as their receiver. -/
def HasReceivers (d : TypeDef π) : Prop := ∀ m ∈ d.methods, m.2.receiver = d.repr

variable {d : TypeDef π}

theorem HasReceivers.setRepr (d : TypeDef π) (k : ValueKind) : (d.setRepr k).HasReceivers := by
  rw [HasReceivers, TypeDef.setRepr, List.forall_mem_map]
  exact fun _ _ => rfl

theorem HasReceivers.addMethod (h : d.HasReceivers) (name : String) (o : Overload π) :
    (d.addMethod name o).HasReceivers := by
  unfold TypeDef.addMethod
  split
  · refine List.forall_mem_map.mpr fun m hm => ?_
    have hreceiver := h m hm
    dsimp only
    split <;> exact hreceiver
  · exact List.forall_mem_append.mpr ⟨h, List.forall_mem_singleton.mpr rfl⟩

theorem isKept_hasReceivers : IsKept (HasReceivers : TypeDef π → Prop) where
  new _ _ := nofun
  setRepr d k _ := HasReceivers.setRepr d k
  addConstructor _ _ _ h := h
  addMethod _ name o _ h := h.addMethod name o

theorem HasReceivers.receiver_method? {name : String} {g : MethodGroup π} (h : d.HasReceivers)
    (hg : d.method? name = some g) : g.receiver = d.repr :=
  h _ (mem_methods_of_method? hg)

end TypeDef

namespace Registry

variable {r : Registry π} {name : String}

/-- What declarations keep holds of every type that is found. -/
theorem forall_findType {P : TypeDef π → Prop} {d : TypeDef π} (hr : r.IsDeclared)
    (hP : TypeDef.IsKept P) (h : r.findType name = .ok d) : P d := by
  obtain ⟨m, hm, hd⟩ := List.exists_of_findSome?_eq_some (findType_eq_ok_iff.mp h).2
  obtain ⟨_, _, hdecls⟩ := hr m hm
  exact Module.forall_ofDecls hP hdecls d (Module.path_resolve? hd).1

end Registry

end ActionGrammar
