import ActionGrammar.Proofs.Registry.Names
import Mathlib.Data.List.Nodup

/-! # What is reached by its full name

Types may be nested, and methods added, under names with dots. But every segment
of a full name behind the top-level type is taken for a nested type, and the
last one for a method. So a full name leads to its type or method exactly if no
name below the top level has a dot.
-/

namespace ActionGrammar

open DottedName

variable {π : Type}

namespace TypePath

variable {p : TypePath}

def isPlain (p : TypePath) : Bool := p.nested.all fun s => isIdentifier s.toList

theorem isPlain_iff : p.isPlain = true ↔ ∀ s ∈ p.nested, isIdentifier s.toList = true :=
  List.all_eq_true

theorem IsWellFormed.isWellFormed_fullName (h : p.IsWellFormed) :
    isWellFormed p.fullName = true := by
  rw [fullName, isWellFormed_join_iff (List.cons_ne_nil _ _)]
  exact List.forall_mem_cons.mpr ⟨h.top, h.nested⟩

theorem IsWellFormed.split_fullName (h : p.IsWellFormed) (hplain : p.isPlain = true) :
    split p.fullName = split p.top ++ p.nested := by
  have htop := split_ne_nil p.top
  rw [fullName, ← join_split p.top, join_join_cons htop, join_split]
  refine split_join (by simp [htop]) (List.forall_mem_append.mpr ⟨fun s hs => ?_, fun s hs => ?_⟩)
  · exact not_mem_of_isIdentifier (isIdentifier_of_mem_split h.top hs)
  · exact not_mem_of_isIdentifier (isPlain_iff.mp hplain s hs)

end TypePath

namespace TypeDef

def keys (d : TypeDef π) : List String := d.methods.map Prod.fst

/-- The type and its methods are registered under dotted names, each method once. -/
structure IsKeyed (d : TypeDef π) : Prop where
  path : d.path.IsWellFormed
  wellFormed : ∀ key ∈ d.keys, isWellFormed key = true
  nodup : d.keys.Nodup

variable {d : TypeDef π}

theorem path_addMethod (name : String) (o : Overload π) : (d.addMethod name o).path = d.path := by
  unfold addMethod
  split <;> rfl

theorem keys_setRepr (k : ValueKind) : (d.setRepr k).keys = d.keys := by
  simp [keys, setRepr]

theorem keys_addMethod (name : String) (o : Overload π) :
    (d.addMethod name o).keys = if name ∈ d.keys then d.keys else d.keys ++ [name] := by
  have hany : d.methods.any (·.1 == name) = true ↔ name ∈ d.keys := by simp [keys]
  unfold addMethod
  by_cases hname : name ∈ d.keys
  · rw [if_pos (hany.mpr hname), if_pos hname, keys, List.map_map, keys]
    congr 1
    funext x
    simp only [Function.comp_apply]
    split <;> rfl
  · rw [if_neg (mt hany.mp hname), if_neg hname]
    simp [keys]

theorem IsKeyed.addMethod (h : d.IsKeyed) {name : String} (hname : isWellFormed name = true)
    (o : Overload π) : (d.addMethod name o).IsKeyed := by
  constructor
  · rw [path_addMethod]
    exact h.path
  · rw [keys_addMethod]
    split
    · exact h.wellFormed
    · exact List.forall_mem_append.mpr ⟨h.wellFormed, List.forall_mem_singleton.mpr hname⟩
  · rw [keys_addMethod]
    split
    · exact h.nodup
    · rename_i hnew
      exact List.nodup_append_comm.mp (List.nodup_cons.mpr ⟨hnew, h.nodup⟩)

theorem isKept_isKeyed : IsKept (IsKeyed : TypeDef π → Prop) where
  new _ hp := ⟨hp, nofun, .nil⟩
  setRepr d k h := by
    have hkeys : (d.setRepr k).keys = d.keys := keys_setRepr k
    exact ⟨h.path, hkeys ▸ h.wellFormed, hkeys ▸ h.nodup⟩
  addConstructor _ _ _ h := ⟨h.path, h.wellFormed, h.nodup⟩
  addMethod _ _ o hname h := h.addMethod hname o

theorem IsKeyed.isWellFormed_name (h : d.IsKeyed) : isWellFormed d.name = true :=
  h.path.isWellFormed_fullName

theorem IsKeyed.method?_eq_some (h : d.IsKeyed) {key : String} {g : MethodGroup π}
    (hg : (key, g) ∈ d.methods) : d.method? key = some g := by
  obtain ⟨before, after, heq⟩ := List.append_of_mem hg
  apply List.lookup_eq_some_iff.mpr
  refine ⟨before, after, heq, fun x hx => ?_⟩
  have hnodup := h.nodup
  rw [TypeDef.keys, heq, List.map_append, List.map_cons, List.nodup_append] at hnodup
  have hne := hnodup.2.2 x.1 (List.mem_map_of_mem hx) key List.mem_cons_self
  simpa using Ne.symm hne

end TypeDef

namespace Module

variable {m : Module π} {d : TypeDef π}

theorem find?_path (hne : (m.types.map TypeDef.name).Nodup) (hd : d ∈ m.types) :
    m.find? d.path = some d := by
  cases hfind : m.find? d.path with
  | none =>
    rw [find?, List.find?_eq_none] at hfind
    exact absurd (beq_self_eq_true _) (hfind d hd)
  | some d' =>
    obtain ⟨hd', hpath⟩ := path_find? hfind
    have hname : d'.name = d.name := congrArg TypePath.fullName hpath
    rw [List.inj_on_of_nodup_map hne hd' hd hname]

/-- Where no longer name is a top-level type, shorter ones are tried. -/
theorem exists_resolve? {segments : List String} {k n : Nat} (hk : k < n)
    (h : m.find? ⟨join (segments.take (k + 1)), segments.drop (k + 1)⟩ = some d) :
    ∃ d', m.resolve? segments n = some d' := by
  induction n with
  | zero => omega
  | succ n ih =>
    rw [resolve?]
    cases hfind : m.find? ⟨join (segments.take (n + 1)), segments.drop (n + 1)⟩ with
    | some d' => exact ⟨d', rfl⟩
    | none =>
      apply ih
      have hkn : k ≠ n := by
        rintro rfl
        rw [hfind] at h
        cases h
      omega

end Module

namespace Registry

variable {m : Module π} {d d' : TypeDef π} {name key : String} {g : MethodGroup π}

theorem findType_only_eq_ok_iff :
    (⟨[m]⟩ : Registry π).findType name = .ok d ↔
      isWellFormed name = true ∧ m.resolve? (split name) (split name).length = some d := by
  rw [findType_eq_ok_iff]
  cases h : m.resolve? (split name) (split name).length <;> simp [h]

theorem isPlain_of_findType (h : (⟨[m]⟩ : Registry π).findType name = .ok d) :
    d.path.isPlain = true := by
  obtain ⟨hname, h⟩ := findType_only_eq_ok_iff.mp h
  obtain ⟨-, k, hpath⟩ := Module.path_resolve? h
  rw [TypePath.isPlain_iff, hpath]
  intro s hs
  exact isIdentifier_of_mem_split hname (List.mem_of_mem_drop hs)

theorem mem_of_findType (h : (⟨[m]⟩ : Registry π).findType name = .ok d) :
    d ∈ m.types ∧ d.name = name := by
  obtain ⟨-, h⟩ := findType_only_eq_ok_iff.mp h
  have hfound := Module.name_resolve? (split_ne_nil name) h
  rwa [join_split] at hfound

/-- The name of a method that has a dot of its own only leads to methods of other types. -/
theorem exists_ne_of_findMethodGroup (hk : d.IsKeyed) (hmem : key ∈ d.keys)
    (hkey : isIdentifier key.toList = false)
    (h : (⟨[m]⟩ : Registry π).findMethodGroup (d.name ++ "." ++ key) = .ok g) :
    ∃ d' ∈ m.types, d' ≠ d ∧ ∃ key', (key', g) ∈ d'.methods := by
  obtain ⟨owner, member, d', -, hsplit, hd', hg⟩ := findMethodGroup_eq_ok_iff.mp h
  obtain ⟨hmem', rfl⟩ := mem_of_findType hd'
  refine ⟨d', hmem', ?_, member, ?_⟩
  · rintro rfl
    have hsame : key = member := by
      have happ := append_of_splitMember? hsplit
      rw [← String.toList_inj] at happ ⊢
      simpa using happ
    have hdot := not_mem_of_splitMember? hsplit
    rw [← hsame] at hdot
    have hident := isIdentifier_iff.mpr ⟨hk.wellFormed key hmem, hdot⟩
    exact nomatch hkey.symm.trans hident
  · exact TypeDef.mem_methods_of_method? hg

section

variable (hne : (m.types.map TypeDef.name).Nodup) (hd : d ∈ m.types)

include hne hd

theorem findType_of_isPlain (hp : d.path.IsWellFormed) (hplain : d.path.isPlain = true) :
    (⟨[m]⟩ : Registry π).findType d.name = .ok d := by
  have hsplit : split d.name = split d.path.top ++ d.path.nested := hp.split_fullName hplain
  obtain ⟨s, ss, htop⟩ := List.exists_cons_of_ne_nil (split_ne_nil d.path.top)
  -- The segments of the top-level name are the prefix that leads to the type.
  have hpath : d.path = ⟨join ((split d.name).take (ss.length + 1)),
      (split d.name).drop (ss.length + 1)⟩ := by
    have hlen : ss.length + 1 = (split d.path.top).length := by rw [htop, List.length_cons]
    rw [hsplit, hlen, List.take_left, List.drop_left, join_split]
  have hfind := Module.find?_path hne hd
  rw [hpath] at hfind
  have hlt : ss.length < (split d.name).length := by
    rw [hsplit, htop, List.length_append, List.length_cons]
    omega
  obtain ⟨d', h⟩ := Module.exists_resolve? hlt hfind
  have hfound : (⟨[m]⟩ : Registry π).findType d.name = .ok d' :=
    findType_only_eq_ok_iff.mpr ⟨hp.isWellFormed_fullName, h⟩
  obtain ⟨hd', hname⟩ := mem_of_findType hfound
  rwa [List.inj_on_of_nodup_map hne hd' hd hname] at hfound

theorem findType_name (hp : d.path.IsWellFormed) :
    (⟨[m]⟩ : Registry π).findType d.name =
      if d.path.isPlain then .ok d else .error (.typeNotFound d.name) := by
  split
  · rename_i hplain
    exact findType_of_isPlain hne hd hp hplain
  · rename_i hplain
    apply findType_eq_error_of_ne hp.isWellFormed_fullName
    intro d' h
    obtain ⟨hd', hname⟩ := mem_of_findType h
    obtain rfl := List.inj_on_of_nodup_map hne hd' hd hname
    exact hplain (isPlain_of_findType h)

theorem findMethodGroup_of_isIdentifier (hk : d.IsKeyed) (hg : (key, g) ∈ d.methods)
    (hkey : isIdentifier key.toList = true) :
    (⟨[m]⟩ : Registry π).findMethodGroup (d.name ++ "." ++ key) =
      if d.path.isPlain then .ok g else .error (.typeNotFound d.name) := by
  obtain ⟨hwf, hdot⟩ := isIdentifier_iff.mp hkey
  have hname : isWellFormed (d.name ++ "." ++ key) = true :=
    isWellFormed_append_dot_iff.mpr ⟨hk.isWellFormed_name, hwf⟩
  rw [findMethodGroup_of_splitMember? hname (splitMember?_append_dot hdot),
    findType_name hne hd hk.path]
  split
  · simp only [bind, Except.bind, hk.method?_eq_some hg]
  · rfl

end

/-- In a module whose types differ in their names, the full name of a type leads to the type exactly
if none of the nested types on the way has a name with a dot. A method is reached if its type is and
its own name has no dot either. Otherwise its name leads to no method or to one of another type. -/
theorem find_by_full_name {decls : List (TypeDecl π)} (hm : Module.ofDecls name decls = .ok m)
    (hne : (m.types.map TypeDef.name).Nodup) :
    ∀ d ∈ m.types,
      (⟨[m]⟩ : Registry π).findType d.name =
        (if d.path.isPlain then .ok d else .error (.typeNotFound d.name)) ∧
      ∀ key g, (key, g) ∈ d.methods →
        (isIdentifier key.toList = true → (⟨[m]⟩ : Registry π).findMethodGroup g.name =
          if d.path.isPlain then .ok g else .error (.typeNotFound d.name)) ∧
        (isIdentifier key.toList = false → ∀ g',
          (⟨[m]⟩ : Registry π).findMethodGroup g.name = .ok g' →
            ∃ d' ∈ m.types, d' ≠ d ∧ ∃ key', (key', g') ∈ d'.methods) := by
  intro d hd
  have hk : d.IsKeyed := Module.forall_ofDecls TypeDef.isKept_isKeyed hm d hd
  have hnamed : d.IsNamed := Module.isNamed_ofDecls hm d hd
  refine ⟨findType_name hne hd hk.path, fun key g hg => ?_⟩
  have hname : g.name = d.name ++ "." ++ key := hnamed.methods (key, g) hg
  rw [hname]
  constructor
  · exact fun hkey => findMethodGroup_of_isIdentifier hne hd hk hg hkey
  · intro hkey g' h
    exact exists_ne_of_findMethodGroup hk (List.mem_map_of_mem hg) hkey h

def dottedDecls : List (TypeDecl Unit) :=
  [⟨"A", [.nested "D" [.static "m" [] fun _ => pure (.int 1)], .nested "B.C" [],
    .static "x.y" [] fun _ => pure (.int 2)]⟩]

def plainGroup : MethodGroup Unit := ⟨"A.D.m", none, [⟨[], .static fun _ => pure (.int 1)⟩]⟩

def dottedGroup : MethodGroup Unit := ⟨"A.x.y", none, [⟨[], .static fun _ => pure (.int 2)⟩]⟩

def dottedModule : Module Unit :=
  ⟨"dotted", [⟨⟨"A", []⟩, none, ⟨"A", none, []⟩, [("x.y", dottedGroup)]⟩,
    ⟨⟨"A", ["D"]⟩, none, ⟨"A.D", none, []⟩, [("m", plainGroup)]⟩, .new ⟨"A", ["B.C"]⟩]⟩

theorem ofDecls_dottedDecls : Module.ofDecls "dotted" dottedDecls = .ok dottedModule := by rfl

theorem nodup_dottedModule : (dottedModule.types.map TypeDef.name).Nodup := by decide

/-- The nested type without dots is reached with its method, and the other one is not. -/
theorem find_by_full_name_dotted :
    Module.ofDecls "dotted" dottedDecls = .ok dottedModule ∧
    (dottedModule.types.map TypeDef.name).Nodup ∧
    (⟨[dottedModule]⟩ : Registry Unit).findMethodGroup "A.D.m" = .ok plainGroup ∧
    (⟨[dottedModule]⟩ : Registry Unit).findType "A.B.C" = .error (.typeNotFound "A.B.C") := by
  have hall := find_by_full_name ofDecls_dottedDecls nodup_dottedModule
  refine ⟨ofDecls_dottedDecls, nodup_dottedModule, ?_, ?_⟩
  · obtain ⟨-, hmethods⟩ := hall ⟨⟨"A", ["D"]⟩, none, ⟨"A.D", none, []⟩, [("m", plainGroup)]⟩
      (by simp [dottedModule])
    exact (hmethods "m" plainGroup (by simp)).1 (by decide)
  · obtain ⟨htype, -⟩ := hall (.new ⟨"A", ["B.C"]⟩) (by simp [dottedModule])
    exact htype

/-- Types and methods that are declared under names with dots may be found nowhere. -/
theorem dotted_unreached :
    Module.ofDecls "dotted" dottedDecls = .ok dottedModule ∧
    (dottedModule.types.map TypeDef.name).Nodup ∧
    (∃ d ∈ dottedModule.types, d.name = "A.B.C" ∧
      (⟨[dottedModule]⟩ : Registry Unit).findType d.name = .error (.typeNotFound "A.B.C")) ∧
    ∃ d ∈ dottedModule.types, ∃ g, ("x.y", g) ∈ d.methods ∧ g.name = "A.x.y" ∧
      (⟨[dottedModule]⟩ : Registry Unit).findMethodGroup g.name = .error (.typeNotFound "A.x") := by
  refine ⟨ofDecls_dottedDecls, nodup_dottedModule, ⟨.new ⟨"A", ["B.C"]⟩, ?_, rfl, rfl⟩,
    ⟨_, List.mem_cons_self, dottedGroup, List.mem_cons_self, rfl, rfl⟩⟩
  simp [dottedModule]

end Registry

end ActionGrammar
