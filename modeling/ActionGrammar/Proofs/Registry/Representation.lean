import ActionGrammar.Proofs.Registry.Module
import ActionGrammar.Proofs.Registry.Receiver
import Mathlib.Data.List.Induction

/-! # Representations

A type is what its own members make of it, wherever the declarations of other types
stand between them. So it is represented by the kind that was set last for it, its
methods take that kind as their receiver, and its constructors take none.
-/

namespace ActionGrammar

variable {π : Type}

/-! ### The members of a type -/

mutual

/-- The members that a member of the type `p` declares for the type `q`, in order. -/
def Member.ownedBy (q p : TypePath) : Member π → List (Member π)
  | .nested name members => ownedByAll q (p.child name) members
  | x => if p = q then [x] else []

def Member.ownedByAll (q p : TypePath) : List (Member π) → List (Member π)
  | [] => []
  | x :: xs => x.ownedBy q p ++ ownedByAll q p xs

end

def TypeDecl.membersOf (q : TypePath) (decls : List (TypeDecl π)) : List (Member π) :=
  decls.flatMap fun d => Member.ownedByAll q ⟨d.name, []⟩ d.members

def Member.kind? : Member π → Option ValueKind
  | .repr k => some k
  | _ => none

namespace TypeDef

theorem repr_addMember (d : TypeDef π) (x : Member π) :
    (d.addMember x).repr = x.kind?.or d.repr := by
  cases x with
  | static | method =>
    simp only [addMember, addMethod]
    split <;> rfl
  | _ => rfl

theorem repr_foldl_addMember (p : TypePath) (xs : List (Member π)) :
    (xs.foldl addMember (.new p)).repr = (xs.filterMap Member.kind?).getLast? := by
  induction xs using List.reverseRecOn with
  | nil => rfl
  | append_singleton xs x ih =>
    rw [List.foldl_append, List.foldl_cons, List.foldl_nil, repr_addMember, ih,
      List.filterMap_append, List.getLast?_append]
    cases x <;> rfl

structure HasStaticConstructors (d : TypeDef π) : Prop where
  receiver : d.constructors.receiver = none
  overloads : ∀ o ∈ d.constructors.overloads, o.isStatic = true

theorem isKept_hasStaticConstructors :
    IsKept (HasStaticConstructors : TypeDef π → Prop) where
  new _ _ := ⟨rfl, nofun⟩
  setRepr _ _ h := ⟨h.receiver, h.overloads⟩
  addConstructor _ _ _ h :=
    ⟨h.receiver, List.forall_mem_append.mpr ⟨h.overloads, List.forall_mem_singleton.mpr rfl⟩⟩
  addMethod d name o _ h := by
    have hsame : (d.addMethod name o).constructors = d.constructors := by
      unfold TypeDef.addMethod
      split <;> rfl
    constructor
    · rw [hsame]
      exact h.receiver
    · rw [hsame]
      exact h.overloads

end TypeDef

/-! ### Types are made of their members -/

namespace Module

variable {m m' : Module π} {p q : TypePath} {own : TypePath → List (Member π)}

def Has (m : Module π) (p : TypePath) : Prop := ∃ d ∈ m.types, d.path = p

/-- Every type is made of its own members, and only types of the module have any. -/
structure IsMadeOf (m : Module π) (own : TypePath → List (Member π)) : Prop where
  types : ∀ d ∈ m.types, d = (own d.path).foldl .addMember (.new d.path)
  absent : ∀ q, ¬ m.Has q → own q = []

theorem has_declare (m : Module π) (p : TypePath) : (m.declare p).Has p := by
  unfold declare
  split
  · rename_i h
    obtain ⟨d, hd⟩ := Option.isSome_iff_exists.mp h
    exact ⟨d, path_find? hd⟩
  · exact ⟨.new p, List.mem_append_right _ List.mem_cons_self, rfl⟩

theorem Has.declare (h : m.Has q) : (m.declare p).Has q := by
  obtain ⟨d, hd, hq⟩ := h
  unfold Module.declare
  split
  · exact ⟨d, hd, hq⟩
  · exact ⟨d, List.mem_append_left _ hd, hq⟩

theorem IsMadeOf.declare (h : m.IsMadeOf own) : (m.declare p).IsMadeOf own := by
  constructor
  · unfold Module.declare
    split
    · exact h.types
    · rename_i hnew
      have hp : own p = [] := by
        apply h.absent
        rintro ⟨d, hd, rfl⟩
        apply hnew
        rw [find?, List.find?_isSome]
        exact ⟨d, hd, beq_self_eq_true d.path⟩
      refine List.forall_mem_append.mpr ⟨h.types, List.forall_mem_singleton.mpr ?_⟩
      change TypeDef.new p = (own p).foldl _ _
      rw [hp]
      rfl
  · intro q hq
    exact h.absent q fun hm => hq hm.declare

section

variable {x : Member π}

theorem Has.modify (h : m.Has q) : (m.modify p (·.addMember x)).Has q := by
  obtain ⟨d, hd, rfl⟩ := h
  refine ⟨_, List.mem_map_of_mem hd, ?_⟩
  split
  · exact d.path_addMember x
  · rfl

theorem IsMadeOf.modify (h : m.IsMadeOf own) (hp : m.Has p) :
    (m.modify p (·.addMember x)).IsMadeOf
      fun q => own q ++ if p = q then [x] else [] := by
  constructor
  · rw [Module.modify, List.forall_mem_map]
    intro d hd
    by_cases hdp : d.path = p
    · subst hdp
      simp only [beq_self_eq_true, if_true, d.path_addMember]
      rw [List.foldl_append, ← h.types d hd]
      rfl
    · have hne : (d.path == p) = false := beq_false_of_ne hdp
      simp only [hne, Bool.false_eq_true, if_false, Ne.symm hdp, List.append_nil]
      exact h.types d hd
  · intro q hq
    have hne : p ≠ q := by
      rintro rfl
      exact hq hp.modify
    rw [if_neg hne, List.append_nil]
    exact h.absent q fun hm => hq hm.modify

end

/-- A member that is added makes the types it is declared for, and no type gets lost. -/
def Owns (x : Member π) : Prop :=
  ∀ {m m' : Module π} {p : TypePath} {own : TypePath → List (Member π)}, m.IsMadeOf own → m.Has p →
    addMember p x m = .ok m' →
      (m'.IsMadeOf fun q => own q ++ x.ownedBy q p) ∧ ∀ q, m.Has q → m'.Has q

theorem IsMadeOf.addMembers {xs : List (Member π)} (hxs : ∀ x ∈ xs, Owns x) (h : m.IsMadeOf own)
    (hp : m.Has p) (hm : addMembers p xs m = .ok m') :
    (m'.IsMadeOf fun q => own q ++ Member.ownedByAll q p xs) ∧ ∀ q, m.Has q → m'.Has q := by
  induction xs generalizing m own with
  | nil =>
    cases hm
    constructor
    · simpa only [Member.ownedByAll, List.append_nil] using h
    · exact fun q hq => hq
  | cons x xs ih =>
    obtain ⟨hx, hxs⟩ := List.forall_mem_cons.mp hxs
    obtain ⟨m₁, h₁, h₂⟩ := bind_eq_ok_iff.mp hm
    obtain ⟨hmade, hkept⟩ := hx h hp h₁
    obtain ⟨hmade', hkept'⟩ := ih hxs hmade (hkept p hp) h₂
    constructor
    · simpa only [Member.ownedByAll, List.append_assoc] using hmade'
    · exact fun q hq => hkept' q (hkept q hq)

theorem owns (x : Member π) : Owns x := by
  induction hn : sizeOf x using Nat.strongRecOn generalizing x with
  | ind n ih =>
    subst hn
    intro m m' p own h hp hm
    cases x with
    | repr k =>
      cases hm
      exact ⟨h.modify hp (x := .repr k), fun q hq => hq.modify (x := .repr k)⟩
    | creator params run =>
      cases hm
      exact ⟨h.modify hp (x := .creator params run),
        fun q hq => hq.modify (x := .creator params run)⟩
    | static name params run =>
      obtain ⟨-, hm⟩ := requireName_bind_eq_ok_iff.mp hm
      cases hm
      exact ⟨h.modify hp (x := .static name params run),
        fun q hq => hq.modify (x := .static name params run)⟩
    | method name params run =>
      obtain ⟨-, hm⟩ := requireName_bind_eq_ok_iff.mp hm
      cases hm
      exact ⟨h.modify hp (x := .method name params run),
        fun q hq => hq.modify (x := .method name params run)⟩
    | nested name members =>
      obtain ⟨-, hm⟩ := requireName_bind_eq_ok_iff.mp hm
      have hmembers : ∀ y ∈ members, Owns y := by
        intro y hy
        refine ih _ ?_ y rfl
        have hlt := List.sizeOf_lt_of_mem hy
        simp only [Member.nested.sizeOf_spec]
        omega
      obtain ⟨hmade, hkept⟩ := h.declare.addMembers hmembers (has_declare m _) hm
      exact ⟨hmade, fun q hq => hkept q hq.declare⟩

theorem isMadeOf_ofDecls {name : String} {decls : List (TypeDecl π)}
    (h : ofDecls name decls = .ok m) : m.IsMadeOf fun q => TypeDecl.membersOf q decls := by
  have hfold (decls : List (TypeDecl π)) (m₀ : Module π) (own : TypePath → List (Member π))
      (h₀ : m₀.IsMadeOf own) (h : decls.foldlM addType m₀ = .ok m) :
      m.IsMadeOf fun q => own q ++ TypeDecl.membersOf q decls := by
    induction decls generalizing m₀ own with
    | nil =>
      cases h
      simpa only [TypeDecl.membersOf, List.flatMap_nil, List.append_nil] using h₀
    | cons decl decls ih =>
      rw [List.foldlM_cons] at h
      obtain ⟨m₁, h₁, h₂⟩ := bind_eq_ok_iff.mp h
      obtain ⟨-, h₁⟩ := requireName_bind_eq_ok_iff.mp h₁
      obtain ⟨hmade, -⟩ := h₀.declare.addMembers (fun x _ => owns x) (has_declare m₀ _) h₁
      simpa only [TypeDecl.membersOf, List.flatMap_cons, List.append_assoc] using ih m₁ _ hmade h₂
  have hempty : (⟨name, []⟩ : Module π).IsMadeOf fun _ => [] := ⟨nofun, fun _ _ => rfl⟩
  simpa only [List.nil_append] using hfold decls ⟨name, []⟩ _ hempty h

theorem mem_addMember_repr_iff {k : ValueKind} {d : TypeDef π} (hd : d.path ≠ p)
    (h : addMember p (.repr k) m = .ok m') : d ∈ m'.types ↔ d ∈ m.types := by
  cases h
  simp only [modify, List.mem_map]
  constructor
  · rintro ⟨d', hd', heq⟩
    split at heq
    · rename_i hp
      subst heq
      exact absurd (beq_iff_eq.mp hp) hd
    · exact heq ▸ hd'
  · intro hmem
    refine ⟨d, hmem, ?_⟩
    rw [if_neg (by simpa using hd)]

/-- Every type is made of its own members. The kind set last represents it, and it is the receiver
of all its methods, while constructors are static and have no receiver. Whatever is declared so far,
to set the kind of one type leaves all others as they are. -/
theorem methods_receive_last_kind {name : String} {decls : List (TypeDecl π)}
    (hm : ofDecls name decls = .ok m) :
    (∀ d ∈ m.types,
      d = (TypeDecl.membersOf d.path decls).foldl .addMember (.new d.path) ∧
      d.repr = ((TypeDecl.membersOf d.path decls).filterMap Member.kind?).getLast? ∧
      (∀ x ∈ d.methods, x.2.receiver = d.repr) ∧
      d.constructors.receiver = none ∧ ∀ o ∈ d.constructors.overloads, o.isStatic = true) ∧
    ∀ (m₁ m₂ : Module π) (p : TypePath) (k : ValueKind), addMember p (.repr k) m₁ = .ok m₂ →
      ∀ d : TypeDef π, d.path ≠ p → (d ∈ m₂.types ↔ d ∈ m₁.types) := by
  constructor
  · intro d hd
    have hmade := (isMadeOf_ofDecls hm).types d hd
    have hreceivers : d.HasReceivers := forall_ofDecls TypeDef.isKept_hasReceivers hm d hd
    have hstatic := forall_ofDecls TypeDef.isKept_hasStaticConstructors hm d hd
    have hrepr : d.repr = ((TypeDecl.membersOf d.path decls).filterMap Member.kind?).getLast? := by
      rw [← TypeDef.repr_foldl_addMember d.path, ← hmade]
    exact ⟨hmade, hrepr, hreceivers, hstatic.receiver, hstatic.overloads⟩
  · intro m₁ m₂ p k h d hd
    exact mem_addMember_repr_iff hd h

def shapeDecls : List (TypeDecl Unit) :=
  [⟨"Shape", [.method "area" [] fun _ _ => pure (.int 1), .nested "Side" [.repr .str],
      .repr .int, .creator [] fun _ => pure (.int 2), .repr .bool]⟩,
    ⟨"Shape", [.nested "Side" [.method "size" [] fun _ _ => pure (.int 3)]]⟩]

def shapeType : TypeDef Unit where
  path := ⟨"Shape", []⟩
  repr := some .bool
  constructors := ⟨"Shape", none, [⟨[], .static fun _ => pure (.int 2)⟩]⟩
  methods := [("area", ⟨"Shape.area", some .bool, [⟨[], .method fun _ _ => pure (.int 1)⟩]⟩)]

def sideType : TypeDef Unit where
  path := ⟨"Shape", ["Side"]⟩
  repr := some .str
  constructors := ⟨"Shape.Side", none, []⟩
  methods := [("size", ⟨"Shape.Side.size", some .str, [⟨[], .method fun _ _ => pure (.int 3)⟩]⟩)]

/-- The method takes the second kind, which was set behind it, and the nested type keeps its own
kind. -/
theorem methods_receive_last_kind_shape :
    ofDecls "shapes" shapeDecls = .ok ⟨"shapes", [shapeType, sideType]⟩ ∧
    (TypeDecl.membersOf shapeType.path shapeDecls).filterMap Member.kind? = [.int, .bool] ∧
    shapeType.repr = some .bool ∧ (∀ x ∈ shapeType.methods, x.2.receiver = some .bool) ∧
    ∀ m, addMember shapeType.path (.repr .any) ⟨"shapes", [shapeType, sideType]⟩ = .ok m →
      sideType ∈ m.types := by
  have hdecls : ofDecls "shapes" shapeDecls = .ok ⟨"shapes", [shapeType, sideType]⟩ := by rfl
  have hkinds : (TypeDecl.membersOf shapeType.path shapeDecls).filterMap Member.kind? =
      [.int, .bool] := by rfl
  obtain ⟨htypes, hframe⟩ := methods_receive_last_kind hdecls
  obtain ⟨-, hrepr, hreceivers, -⟩ := htypes shapeType List.mem_cons_self
  rw [hkinds] at hrepr
  refine ⟨hdecls, hkinds, hrepr, fun x hx => (hreceivers x hx).trans hrepr, fun m hm => ?_⟩
  have hside : sideType.path ≠ shapeType.path := by decide
  rw [hframe _ _ _ _ hm sideType hside]
  exact List.mem_cons_of_mem _ List.mem_cons_self

end Module

end ActionGrammar
