import ActionGrammar.Proofs.Expr.Everywhere
import ActionGrammar.Proofs.Registry.Declared
import ActionGrammar.Proofs.Registry.Lookup
import ActionGrammar.Proofs.Text.DottedName

/-! # Names of callees

What a registry finds under a name carries that name: types are found under
their full names, constructors are named for their type, and methods for their
type and their own name. A template thus keeps its names when it is resolved.
-/

namespace ActionGrammar

variable {π : Type}

namespace TypeDef

structure IsNamed (d : TypeDef π) : Prop where
  constructors : d.constructors.name = d.name
  methods : ∀ m ∈ d.methods, m.2.name = d.name ++ "." ++ m.1

theorem isNamed_new (p : TypePath) : (new p : TypeDef π).IsNamed := ⟨rfl, by simp [new]⟩

variable {d : TypeDef π}

theorem IsNamed.setRepr (h : d.IsNamed) (k : ValueKind) : (d.setRepr k).IsNamed :=
  ⟨h.constructors, List.forall_mem_map.mpr h.methods⟩

theorem IsNamed.addConstructor (h : d.IsNamed) (o : Overload π) : (d.addConstructor o).IsNamed :=
  ⟨h.constructors, h.methods⟩

theorem IsNamed.addMethod (h : d.IsNamed) (name : String) (o : Overload π) :
    (d.addMethod name o).IsNamed := by
  unfold TypeDef.addMethod
  split
  · refine ⟨h.constructors, List.forall_mem_map.mpr fun m hm => ?_⟩
    have hname := h.methods m hm
    dsimp only
    split <;> exact hname
  · refine ⟨h.constructors, List.forall_mem_append.mpr ⟨h.methods, ?_⟩⟩
    exact List.forall_mem_singleton.mpr rfl

theorem isKept_isNamed : IsKept (IsNamed : TypeDef π → Prop) where
  new p _ := isNamed_new p
  setRepr _ k h := h.setRepr k
  addConstructor _ _ _ h := h.addConstructor _
  addMethod _ name o _ h := h.addMethod name o

theorem mem_methods_of_method? {key : String} {g : MethodGroup π} (hg : d.method? key = some g) :
    (key, g) ∈ d.methods := by
  obtain ⟨before, after, heq, -⟩ := List.lookup_eq_some_iff.mp hg
  simp [heq]

theorem IsNamed.name_method? {key : String} {g : MethodGroup π} (h : d.IsNamed)
    (hg : d.method? key = some g) : g.name = d.name ++ "." ++ key :=
  h.methods _ (mem_methods_of_method? hg)

end TypeDef

namespace Module

variable {m : Module π} {name : String}

theorem isNamed_ofDecls {decls : List (TypeDecl π)} (h : ofDecls name decls = .ok m) :
    ∀ d ∈ m.types, d.IsNamed :=
  forall_ofDecls TypeDef.isKept_isNamed h

theorem path_find? {p : TypePath} {d : TypeDef π} (h : m.find? p = some d) :
    d ∈ m.types ∧ d.path = p := by
  unfold find? at h
  have hpath := List.find?_some h
  exact ⟨List.mem_of_find?_eq_some h, eq_of_beq hpath⟩

/-- What is found has the first segments as its top-level name and the others as nested names. -/
theorem path_resolve? {d : TypeDef π} {segments : List String} {n : Nat}
    (h : m.resolve? segments n = some d) :
    d ∈ m.types ∧ ∃ k, d.path = ⟨DottedName.join (segments.take (k + 1)), segments.drop (k + 1)⟩ := by
  induction n with
  | zero => exact nomatch h
  | succ n ih =>
    rw [resolve?] at h
    split at h
    · rename_i hd
      cases h
      obtain ⟨hmem, hpath⟩ := path_find? hd
      exact ⟨hmem, n, hpath⟩
    · exact ih h

theorem name_resolve? {d : TypeDef π} {segments : List String} {n : Nat} (hs : segments ≠ [])
    (h : m.resolve? segments n = some d) : d ∈ m.types ∧ d.name = DottedName.join segments := by
  obtain ⟨hd, k, hpath⟩ := path_resolve? h
  have htake : segments.take (k + 1) ≠ [] := by simpa using hs
  refine ⟨hd, ?_⟩
  rw [TypeDef.name, hpath, TypePath.fullName, DottedName.join_join_cons htake,
    List.take_append_drop]

end Module

namespace Registry

def IsDeclared (r : Registry π) : Prop :=
  ∀ m ∈ r.modules, ∃ name decls, Module.ofDecls name decls = .ok m

variable {r : Registry π} {name : String} {g : MethodGroup π}

theorem name_findType {d : TypeDef π} (hr : r.IsDeclared) (h : r.findType name = .ok d) :
    d.IsNamed ∧ d.name = name ∧ DottedName.isWellFormed name = true := by
  obtain ⟨hw, hd⟩ := findType_eq_ok_iff.mp h
  obtain ⟨m, hm, hd⟩ := List.exists_of_findSome?_eq_some hd
  obtain ⟨_, _, hdecls⟩ := hr m hm
  obtain ⟨hmem, hname⟩ := Module.name_resolve? (DottedName.split_ne_nil name) hd
  exact ⟨Module.isNamed_ofDecls hdecls d hmem, by rw [hname, DottedName.join_split], hw⟩

theorem name_findConstructors (hr : r.IsDeclared) (h : r.findConstructors name = .ok g) :
    g.name = name ∧ DottedName.isWellFormed name = true := by
  obtain ⟨d, hd, rfl, -⟩ := findConstructors_eq_ok_iff.mp h
  obtain ⟨hnamed, hname, hw⟩ := name_findType hr hd
  exact ⟨hnamed.constructors.trans hname, hw⟩

theorem name_findMethodGroup (hr : r.IsDeclared) (h : r.findMethodGroup name = .ok g) :
    g.name = name ∧ DottedName.isWellFormed name = true := by
  obtain ⟨owner, member, d, hw, hsplit, hd, hg⟩ := findMethodGroup_eq_ok_iff.mp h
  obtain ⟨hnamed, hname, -⟩ := name_findType hr hd
  rw [hnamed.name_method? hg, hname]
  exact ⟨(DottedName.append_of_splitMember? hsplit).symm, hw⟩

end Registry

namespace Template

variable {r : Registry π} {g : MethodGroup π}

theorem name_findMethods {name : String} {isStatic : Bool} (hr : r.IsDeclared)
    (h : findMethods r name isStatic = .ok g) :
    g.name = name ∧ DottedName.isWellFormed name = true :=
  Registry.name_findMethodGroup hr (findMethods_eq_ok_iff.mp h).1

def IsWellNamed (t : Template) : Prop :=
  t.Everywhere (DottedName.isWellFormed · = true) (fun _ => True) fun _ => True

mutual

theorem eq_map_of_resolve (hr : r.IsDeclared) : ∀ (t : Template) {e : Resolved π},
    resolve r t = .ok e → t = e.map MethodGroup.name ∧ t.IsWellNamed
  | .constant l, e, h => by
    cases h
    exact ⟨rfl, .constant trivial⟩
  | .result i, e, h => by
    cases h
    exact ⟨rfl, .result trivial⟩
  | .construct t args, e, h => by
    obtain ⟨g, es, hg, hes, rfl⟩ := resolve_construct_eq_ok_iff.mp h
    obtain ⟨hname, hw⟩ := Registry.name_findConstructors hr hg
    obtain ⟨hargs, hall⟩ := eq_mapAll_of_resolveAll hr args hes
    exact ⟨by rw [Expr.map, hname, ← hargs], .construct hw hall⟩
  | .static m args, e, h => by
    obtain ⟨g, es, hg, hes, rfl⟩ := resolve_static_eq_ok_iff.mp h
    obtain ⟨hname, hw⟩ := name_findMethods hr hg
    obtain ⟨hargs, hall⟩ := eq_mapAll_of_resolveAll hr args hes
    exact ⟨by rw [Expr.map, hname, ← hargs], .static hw hall⟩
  | .invoke m receiver args, e, h => by
    obtain ⟨g, e', es, hg, he', hes, rfl⟩ := resolve_invoke_eq_ok_iff.mp h
    obtain ⟨hname, hw⟩ := name_findMethods hr hg
    obtain ⟨hreceiver, hr'⟩ := eq_map_of_resolve hr receiver he'
    obtain ⟨hargs, hall⟩ := eq_mapAll_of_resolveAll hr args hes
    exact ⟨by rw [Expr.map, hname, ← hargs, ← hreceiver], .invoke hw hr' hall⟩

theorem eq_mapAll_of_resolveAll (hr : r.IsDeclared) : ∀ (ts : List Template)
    {es : List (Resolved π)}, resolveAll r ts = .ok es →
      ts = Expr.mapAll MethodGroup.name es ∧ ∀ t ∈ ts, t.IsWellNamed
  | [], es, h => by
    cases h
    exact ⟨rfl, fun _ ht => nomatch ht⟩
  | t :: ts, es, h => by
    obtain ⟨e, es', he, hes, rfl⟩ := resolveAll_cons_eq_ok_iff.mp h
    obtain ⟨ht, hw⟩ := eq_map_of_resolve hr t he
    obtain ⟨hts, hall⟩ := eq_mapAll_of_resolveAll hr ts hes
    exact ⟨by rw [Expr.mapAll, ← ht, ← hts], List.forall_mem_cons.mpr ⟨hw, hall⟩⟩

end

end Template

theorem Resolved.text_eq (e : Resolved π) : e.text = Template.text (e.map MethodGroup.name) := by
  rw [Template.text, Expr.print_map]
  rfl

namespace Registry

/-- What a registry finds under a name carries that name, so a template is printed as before once it
is resolved. -/
theorem finds_by_name {r : Registry π} (hr : r.IsDeclared) :
    (∀ name d, r.findType name = .ok d → d.name = name) ∧
    (∀ name g, r.findMethodGroup name = .ok g → g.name = name) ∧
    (∀ name g, r.findConstructors name = .ok g → g.name = name) ∧
    ∀ (t : Template) (e : Resolved π), t.resolve r = .ok e → e.text = t.text := by
  refine ⟨fun name d h => ?_, fun name g h => ?_, fun name g h => ?_, fun t e h => ?_⟩
  · exact (name_findType hr h).2.1
  · exact (name_findMethodGroup hr h).1
  · exact (name_findConstructors hr h).1
  · obtain ⟨ht, -⟩ := Template.eq_map_of_resolve hr t h
    rw [e.text_eq, ← ht]

/-- A type whose nested type is declared in two parts, and a type that is named like the first part
of its name. -/
def planeDecls : List (TypeDecl Unit) :=
  [⟨"plane.Shape", [.nested "Circle" [.creator [.int] fun _ => pure .null]]⟩,
    ⟨"plane", [.static "origin" [] fun _ => pure .null]⟩,
    ⟨"plane.Shape", [.nested "Circle" [.repr .int, .method "grow" [.int] fun this _ => pure this]]⟩]

def growGroup : MethodGroup Unit :=
  ⟨"plane.Shape.Circle.grow", some .int, [⟨[.int], .method fun this _ => pure this⟩]⟩

def circleType : TypeDef Unit where
  path := ⟨"plane.Shape", ["Circle"]⟩
  repr := some .int
  constructors := ⟨"plane.Shape.Circle", none, [⟨[.int], .static fun _ => pure .null⟩]⟩
  methods := [("grow", growGroup)]

def planeType : TypeDef Unit where
  path := ⟨"plane", []⟩
  repr := none
  constructors := ⟨"plane", none, []⟩
  methods := [("origin", ⟨"plane.origin", none, [⟨[], .static fun _ => pure .null⟩]⟩)]

def planeModule : Module Unit := ⟨"geometry", [.new ⟨"plane.Shape", []⟩, circleType, planeType]⟩

theorem ofDecls_planeDecls : Module.ofDecls "geometry" planeDecls = .ok planeModule := by rfl

def planeRegistry : Registry Unit := ⟨[planeModule]⟩

theorem isDeclared_planeRegistry : planeRegistry.IsDeclared := by
  simpa [IsDeclared, planeRegistry] using ⟨_, _, ofDecls_planeDecls⟩

def growTemplate : Template :=
  .invoke "plane.Shape.Circle.grow" (.construct "plane.Shape.Circle" [.constant (.int 1)])
    [.result 0]

/-- The method of the nested type is found under its full name, and so is the constructor. -/
theorem finds_by_name_circle :
    planeRegistry.IsDeclared ∧
    planeRegistry.findMethodGroup "plane.Shape.Circle.grow" = .ok growGroup ∧
    growGroup.name = "plane.Shape.Circle.grow" ∧
    ∃ e : Resolved Unit, growTemplate.resolve planeRegistry = .ok e ∧
      e.text = "plane.Shape.Circle.grow(new plane.Shape.Circle(1), $0)" := by
  have hr := isDeclared_planeRegistry
  obtain ⟨-, hmethod, -, htext⟩ := finds_by_name hr
  have hgrow : planeRegistry.findMethodGroup "plane.Shape.Circle.grow" = .ok growGroup := by rfl
  have hresolve : growTemplate.resolve planeRegistry =
      .ok (.invoke growGroup (.construct circleType.constructors [.constant (.int 1)])
        [.result 0]) := by rfl
  refine ⟨hr, hgrow, hmethod _ _ hgrow, _, hresolve, ?_⟩
  rw [htext _ _ hresolve]
  decide

end Registry

end ActionGrammar
