import ActionGrammar.Proofs.Except
import ActionGrammar.Registry.Module

/-! # What declarations keep

A module is put together step by step: types are declared and members are added
to them, all under dotted names. So whatever holds of new types and outlasts
every kind of member holds of all types that a module declares.
-/

namespace ActionGrammar

variable {π : Type}

namespace TypePath

structure IsWellFormed (p : TypePath) : Prop where
  top : DottedName.isWellFormed p.top = true
  nested : ∀ s ∈ p.nested, DottedName.isWellFormed s = true

theorem IsWellFormed.child {p : TypePath} {name : String} (h : p.IsWellFormed)
    (hname : DottedName.isWellFormed name = true) : (p.child name).IsWellFormed :=
  ⟨h.top, List.forall_mem_append.mpr ⟨h.nested, List.forall_mem_singleton.mpr hname⟩⟩

end TypePath

namespace TypeDef

/-- The property holds of new types and is kept by whatever is added to a type. -/
structure IsKept (P : TypeDef π → Prop) : Prop where
  new : ∀ p : TypePath, p.IsWellFormed → P (.new p)
  setRepr : ∀ (d : TypeDef π) (k : ValueKind), P d → P (d.setRepr k)
  addConstructor : ∀ (d : TypeDef π) (params : List ValueKind)
    (run : Args → Effect π InvokeError Value), P d → P (d.addConstructor ⟨params, .static run⟩)
  addMethod : ∀ (d : TypeDef π) (name : String) (o : Overload π),
    DottedName.isWellFormed name = true → P d → P (d.addMethod name o)

end TypeDef

namespace Module

variable {P : TypeDef π → Prop} {m : Module π} {p : TypePath}

theorem requireName_bind_eq_ok_iff {α : Type} {name : String} {x : Except MalformedName α}
    {a : α} : (requireName name >>= fun _ => x) = .ok a ↔
      DottedName.isWellFormed name = true ∧ x = .ok a := by
  by_cases hname : DottedName.isWellFormed name = true <;>
    simp [requireName, hname, bind, Except.bind]

theorem forall_declare (hP : TypeDef.IsKept P) (hp : p.IsWellFormed) (h : ∀ d ∈ m.types, P d) :
    ∀ d ∈ (m.declare p).types, P d := by
  unfold declare
  split
  · exact h
  · exact List.forall_mem_append.mpr ⟨h, List.forall_mem_singleton.mpr (hP.new p hp)⟩

theorem forall_modify {f : TypeDef π → TypeDef π} (hf : ∀ d, P d → P (f d))
    (h : ∀ d ∈ m.types, P d) : ∀ d ∈ (m.modify p f).types, P d := by
  rw [modify, List.forall_mem_map]
  intro d hd
  split
  · exact hf d (h d hd)
  · exact h d hd

mutual

theorem forall_addMember (hP : TypeDef.IsKept P) {m m' : Module π} {p : TypePath}
    (hp : p.IsWellFormed) (h : ∀ d ∈ m.types, P d) :
    ∀ (x : Member π), addMember p x m = .ok m' → ∀ d ∈ m'.types, P d
  | .repr k, hm => by
    cases hm
    exact forall_modify (fun d => hP.setRepr d k) h
  | .creator params run, hm => by
    cases hm
    exact forall_modify (fun d => hP.addConstructor d params run) h
  | .static name params run, hm => by
    obtain ⟨hname, hm⟩ := requireName_bind_eq_ok_iff.mp hm
    cases hm
    exact forall_modify (fun d => hP.addMethod d name _ hname) h
  | .method name params run, hm => by
    obtain ⟨hname, hm⟩ := requireName_bind_eq_ok_iff.mp hm
    cases hm
    exact forall_modify (fun d => hP.addMethod d name _ hname) h
  | .nested name members, hm => by
    obtain ⟨hname, hm⟩ := requireName_bind_eq_ok_iff.mp hm
    have hchild := hp.child hname
    exact forall_addMembers hP hchild (forall_declare hP hchild h) members hm

theorem forall_addMembers (hP : TypeDef.IsKept P) {m m' : Module π} {p : TypePath}
    (hp : p.IsWellFormed) (h : ∀ d ∈ m.types, P d) :
    ∀ (xs : List (Member π)), addMembers p xs m = .ok m' → ∀ d ∈ m'.types, P d
  | [], hm => by
    cases hm
    exact h
  | x :: xs, hm => by
    obtain ⟨m₁, h₁, h₂⟩ := bind_eq_ok_iff.mp hm
    exact forall_addMembers hP hp (forall_addMember hP hp h x h₁) xs h₂

end

theorem forall_addType (hP : TypeDef.IsKept P) {m' : Module π} {decl : TypeDecl π}
    (h : ∀ d ∈ m.types, P d) (hm : addType m decl = .ok m') : ∀ d ∈ m'.types, P d := by
  obtain ⟨hname, hm⟩ := requireName_bind_eq_ok_iff.mp hm
  have hp : TypePath.IsWellFormed ⟨decl.name, []⟩ := ⟨hname, nofun⟩
  exact forall_addMembers hP hp (forall_declare hP hp h) decl.members hm

theorem forall_ofDecls (hP : TypeDef.IsKept P) {name : String} {decls : List (TypeDecl π)}
    (h : ofDecls name decls = .ok m) : ∀ d ∈ m.types, P d := by
  have hfold (decls : List (TypeDecl π)) (m₀ : Module π) (h₀ : ∀ d ∈ m₀.types, P d)
      (h : decls.foldlM addType m₀ = .ok m) : ∀ d ∈ m.types, P d := by
    induction decls generalizing m₀ with
    | nil =>
      cases h
      exact h₀
    | cons decl decls ih =>
      rw [List.foldlM_cons] at h
      obtain ⟨m₁, h₁, h₂⟩ := bind_eq_ok_iff.mp h
      exact ih m₁ (forall_addType hP h₀ h₁) h₂
  exact hfold decls ⟨name, []⟩ nofun h

end Module

end ActionGrammar
