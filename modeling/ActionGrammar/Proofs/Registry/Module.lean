import ActionGrammar.Proofs.Text.DottedName
import ActionGrammar.Registry.Basic

/-! # Modules of flat declarations

A module whose types are declared once each, without nested types, has just
these types, each with its members in order.
-/

namespace ActionGrammar

variable {π : Type}

namespace TypeDef

def addMember (d : TypeDef π) : Member π → TypeDef π
  | .repr k => d.setRepr k
  | .creator params run => d.addConstructor ⟨params, .static run⟩
  | .static name params run => d.addMethod name ⟨params, .static run⟩
  | .method name params run => d.addMethod name ⟨params, .method run⟩
  | .nested _ _ => d

theorem path_addMember (d : TypeDef π) (x : Member π) : (d.addMember x).path = d.path := by
  cases x with
  | static | method =>
    simp only [addMember, addMethod]
    split <;> rfl
  | _ => rfl

end TypeDef

def Member.IsFlat : Member π → Prop
  | .static name _ _ | .method name _ _ => DottedName.isWellFormed name = true
  | .nested _ _ => False
  | _ => True

namespace TypeDecl

def typeDef (d : TypeDecl π) : TypeDef π := d.members.foldl .addMember (.new ⟨d.name, []⟩)

structure IsFlat (d : TypeDecl π) : Prop where
  name : DottedName.isWellFormed d.name = true
  members : ∀ x ∈ d.members, x.IsFlat

theorem path_typeDef (d : TypeDecl π) : d.typeDef.path = ⟨d.name, []⟩ := by
  have h (xs : List (Member π)) (d : TypeDef π) : (xs.foldl .addMember d).path = d.path := by
    induction xs generalizing d with
    | nil => rfl
    | cons x xs ih => rw [List.foldl_cons, ih, d.path_addMember]
  exact h _ _

end TypeDecl

namespace Module

variable {p : TypePath} {types : List (TypeDef π)} {d : TypeDef π} {name : String}

theorem modify_append (hp : ∀ d ∈ types, d.path ≠ p) (hd : d.path = p)
    (f : TypeDef π → TypeDef π) :
    Module.modify ⟨name, types ++ [d]⟩ p f = ⟨name, types ++ [f d]⟩ := by
  have h : types.map (fun d => if d.path = p then f d else d) = types := by
    refine (List.map_congr_left fun d hd => ?_).trans (List.map_id types)
    simp [hp d hd]
  simp [Module.modify, h, hd]

theorem addMember_append {x : Member π} (hx : x.IsFlat) (hp : ∀ d ∈ types, d.path ≠ p)
    (hd : d.path = p) :
    addMember p x ⟨name, types ++ [d]⟩ = .ok ⟨name, types ++ [d.addMember x]⟩ := by
  cases x with
  | repr | creator => simp only [addMember, modify_append hp hd, TypeDef.addMember]
  | static | method =>
    have hx : DottedName.isWellFormed _ = true := hx
    simp only [addMember, requireName, hx, if_true, modify_append hp hd, TypeDef.addMember]
    rfl
  | nested => exact hx.elim

theorem addMembers_append {xs : List (Member π)} (hx : ∀ x ∈ xs, x.IsFlat)
    (hp : ∀ d ∈ types, d.path ≠ p) (hd : d.path = p) :
    addMembers p xs ⟨name, types ++ [d]⟩ = .ok ⟨name, types ++ [xs.foldl .addMember d]⟩ := by
  induction xs generalizing d with
  | nil => rfl
  | cons x xs ih =>
    rw [addMembers, addMember_append (hx x List.mem_cons_self) hp hd]
    exact ih (fun x h => hx x (List.mem_cons_of_mem _ h)) ((d.path_addMember x).trans hd)

theorem addType_eq_ok {decl : TypeDecl π} (h : decl.IsFlat)
    (hp : ∀ d ∈ types, d.path ≠ ⟨decl.name, []⟩) :
    Module.addType ⟨name, types⟩ decl = .ok ⟨name, types ++ [decl.typeDef]⟩ := by
  have hfind : Module.find? ⟨name, types⟩ ⟨decl.name, []⟩ = none := by
    rw [Module.find?, List.find?_eq_none]
    exact fun d hd => by simpa using hp d hd
  unfold Module.addType
  simp only [requireName, h.name, if_true, declare, hfind, Option.isSome_none, Bool.false_eq_true,
    if_false]
  exact addMembers_append h.members hp rfl

theorem ofDecls_eq_ok {decls : List (TypeDecl π)} (h : ∀ d ∈ decls, d.IsFlat)
    (hne : decls.Pairwise fun d d' => d.name ≠ d'.name) :
    ofDecls name decls = .ok ⟨name, decls.map TypeDecl.typeDef⟩ := by
  have hfold (decls : List (TypeDecl π)) (h : ∀ d ∈ decls, d.IsFlat)
      (hne : decls.Pairwise fun d d' => d.name ≠ d'.name) (types : List (TypeDef π))
      (hp : ∀ d ∈ types, ∀ d' ∈ decls, d.path ≠ ⟨d'.name, []⟩) :
      decls.foldlM addType ⟨name, types⟩ =
        (.ok ⟨name, types ++ decls.map TypeDecl.typeDef⟩ : Except _ (Module π)) := by
    induction decls generalizing types with
    | nil => simp [pure, Except.pure]
    | cons decl decls ih =>
      obtain ⟨hhead, htail⟩ := List.pairwise_cons.mp hne
      rw [List.foldlM_cons, addType_eq_ok (h decl List.mem_cons_self)
        fun d hd => hp d hd decl List.mem_cons_self]
      refine (ih (fun d hd => h d (List.mem_cons_of_mem _ hd)) htail _ ?_).trans (by simp)
      intro d hd d' hd'
      rcases List.mem_append.mp hd with hd | hd
      · exact hp d hd d' (List.mem_cons_of_mem _ hd')
      · rw [List.mem_singleton.mp hd, decl.path_typeDef]
        simpa using hhead d' hd'
  exact hfold decls h hne [] (fun _ h => nomatch h)

theorem find?_typeDef {decls : List (TypeDecl π)} {d : TypeDecl π} (hd : d ∈ decls)
    (hne : decls.Pairwise fun d d' => d.name ≠ d'.name) :
    Module.find? ⟨name, decls.map TypeDecl.typeDef⟩ ⟨d.name, []⟩ = some d.typeDef := by
  rw [Module.find?]
  induction decls with
  | nil => exact nomatch hd
  | cons d' decls ih =>
    obtain ⟨hhead, htail⟩ := List.pairwise_cons.mp hne
    rw [List.map_cons, List.find?_cons, d'.path_typeDef]
    rcases List.mem_cons.mp hd with rfl | hd
    · simp
    · have h : ((⟨d'.name, []⟩ : TypePath) == ⟨d.name, []⟩) = false := by simpa using hhead d hd
      rw [h]
      exact ih hd htail

theorem resolve?_length {m : Module π} {segments : List String} {d : TypeDef π}
    (hs : segments ≠ []) (h : m.find? ⟨DottedName.join segments, []⟩ = some d) :
    m.resolve? segments segments.length = some d := by
  obtain ⟨s, ss, rfl⟩ := List.exists_cons_of_ne_nil hs
  rw [List.length_cons, resolve?, ← List.length_cons, List.take_length, List.drop_length, h]

end Module

namespace Registry

variable {name : String} {decls : List (TypeDecl π)} {d : TypeDecl π}

theorem findType_typeDef (hd : d ∈ decls) (hne : decls.Pairwise fun d d' => d.name ≠ d'.name)
    (hw : DottedName.isWellFormed d.name = true) :
    findType ⟨[⟨name, decls.map TypeDecl.typeDef⟩]⟩ d.name = .ok d.typeDef := by
  have hfind : Module.find? ⟨name, decls.map TypeDecl.typeDef⟩
      ⟨DottedName.join (DottedName.split d.name), []⟩ = some d.typeDef := by
    rw [DottedName.join_split, Module.find?_typeDef hd hne]
  simp only [findType, hw, if_true, List.findSome?_cons,
    Module.resolve?_length (DottedName.split_ne_nil d.name) hfind]

theorem findMethodGroup_typeDef {method member : String} {g : MethodGroup π}
    (ht : findType ⟨[⟨name, decls.map TypeDecl.typeDef⟩]⟩ d.name = .ok d.typeDef)
    (hm : DottedName.isWellFormed method = true)
    (hsplit : DottedName.splitMember? method = some (d.name, member))
    (hg : d.typeDef.method? member = some g) :
    findMethodGroup ⟨[⟨name, decls.map TypeDecl.typeDef⟩]⟩ method = .ok g := by
  unfold findMethodGroup
  simp only [hm, if_true, hsplit, ht, bind, Except.bind, hg]

end Registry

end ActionGrammar
