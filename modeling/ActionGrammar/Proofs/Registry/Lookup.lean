import ActionGrammar.Expr.Resolve
import ActionGrammar.Proofs.Except

/-! # What is looked up

A type is found if some module has it, a method if its owner is found and has it
under its own name, and constructors if there are any. A template resolves
exactly if all of its callees are found and its parts resolve.
-/

namespace ActionGrammar

variable {π : Type}

namespace Registry

variable {r : Registry π} {name : String} {d : TypeDef π} {g : MethodGroup π}

theorem findType_eq_ok_iff :
    r.findType name = .ok d ↔ DottedName.isWellFormed name = true ∧
      r.modules.findSome? (·.resolve? (DottedName.split name) (DottedName.split name).length) =
        some d := by
  unfold findType
  by_cases hname : DottedName.isWellFormed name = true
  · cases hfind : r.modules.findSome?
      (·.resolve? (DottedName.split name) (DottedName.split name).length) <;> simp [hname, hfind]
  · simp [hname]

theorem findType_eq_error_of_ne (hname : DottedName.isWellFormed name = true)
    (h : ∀ d, r.findType name ≠ .ok d) : r.findType name = .error (.typeNotFound name) := by
  cases hfind : r.modules.findSome?
    (·.resolve? (DottedName.split name) (DottedName.split name).length) with
  | some d => exact absurd (findType_eq_ok_iff.mpr ⟨hname, hfind⟩) (h d)
  | none => simp [findType, hname, hfind]

theorem findConstructors_eq_ok_iff :
    r.findConstructors name = .ok g ↔
      ∃ d, r.findType name = .ok d ∧ d.constructors = g ∧ g.overloads ≠ [] := by
  rw [findConstructors, bind_eq_ok_iff]
  constructor
  · rintro ⟨d, hd, h⟩
    dsimp only at h
    split at h
    · exact nomatch h
    · rename_i hne
      cases h
      exact ⟨d, hd, rfl, by simpa using hne⟩
  · rintro ⟨d, hd, rfl, hne⟩
    exact ⟨d, hd, by simp [hne]⟩

theorem findMethodGroup_of_splitMember? {owner member : String}
    (hname : DottedName.isWellFormed name = true)
    (hsplit : DottedName.splitMember? name = some (owner, member)) :
    r.findMethodGroup name = r.findType owner >>= fun d =>
      match d.method? member with
      | some g => .ok g
      | none => .error (.methodNotFound name) := by
  rw [findMethodGroup, hsplit]
  exact if_pos hname

theorem findMethodGroup_eq_ok_iff :
    r.findMethodGroup name = .ok g ↔
      ∃ owner member d, DottedName.isWellFormed name = true ∧
        DottedName.splitMember? name = some (owner, member) ∧ r.findType owner = .ok d ∧
        d.method? member = some g := by
  constructor
  · intro h
    by_cases hname : DottedName.isWellFormed name = true
    · cases hsplit : DottedName.splitMember? name with
      | none => simp [findMethodGroup, hname, hsplit] at h
      | some parts =>
        obtain ⟨owner, member⟩ := parts
        rw [findMethodGroup_of_splitMember? hname hsplit, bind_eq_ok_iff] at h
        obtain ⟨d, hd, h⟩ := h
        cases hg : d.method? member with
        | none => simp [hg] at h
        | some g' =>
          simp only [hg, Except.ok.injEq] at h
          exact ⟨owner, member, d, hname, rfl, hd, h ▸ hg⟩
    · simp [findMethodGroup, hname] at h
  · rintro ⟨owner, member, d, hname, hsplit, hd, hg⟩
    rw [findMethodGroup_of_splitMember? hname hsplit, bind_eq_ok_iff]
    exact ⟨d, hd, by rw [hg]⟩

end Registry

namespace Template

variable {r : Registry π} {name : String} {isStatic : Bool} {g : MethodGroup π} {t : Template}
  {args : List Template} {e : Resolved π} {es : List (Resolved π)}

theorem findMethods_eq_ok_iff :
    findMethods r name isStatic = .ok g ↔
      r.findMethodGroup name = .ok g ∧ g.has isStatic = true := by
  rw [findMethods, bind_eq_ok_iff]
  constructor
  · rintro ⟨g', hg, h⟩
    split at h
    · rename_i hs
      cases h
      exact ⟨hg, hs⟩
    · exact nomatch h
  · rintro ⟨hg, hs⟩
    exact ⟨g, hg, if_pos hs⟩

theorem resolve_construct_eq_ok_iff :
    resolve r (.construct name args) = .ok e ↔
      ∃ g es, r.findConstructors name = .ok g ∧ resolveAll r args = .ok es ∧
        e = .construct g es := by
  simp only [resolve, bind_eq_ok_iff, pure, Except.pure, Except.ok.injEq, exists_and_left,
    @eq_comm _ e]

theorem resolve_static_eq_ok_iff :
    resolve r (.static name args) = .ok e ↔
      ∃ g es, findMethods r name true = .ok g ∧ resolveAll r args = .ok es ∧
        e = .static g es := by
  simp only [resolve, bind_eq_ok_iff, pure, Except.pure, Except.ok.injEq, exists_and_left,
    @eq_comm _ e]

theorem resolve_invoke_eq_ok_iff {receiver : Template} :
    resolve r (.invoke name receiver args) = .ok e ↔
      ∃ g e' es, findMethods r name false = .ok g ∧ resolve r receiver = .ok e' ∧
        resolveAll r args = .ok es ∧ e = .invoke g e' es := by
  simp only [resolve, bind_eq_ok_iff, pure, Except.pure, Except.ok.injEq, exists_and_left,
    @eq_comm _ e]

theorem resolveAll_cons_eq_ok_iff {ts : List Template} :
    resolveAll r (t :: ts) = .ok es ↔
      ∃ e es', resolve r t = .ok e ∧ resolveAll r ts = .ok es' ∧ es = e :: es' := by
  simp only [resolveAll, bind_eq_ok_iff, pure, Except.pure, Except.ok.injEq, exists_and_left,
    @eq_comm _ es]

theorem resolveAll_eq_mapM (r : Registry π) (ts : List Template) :
    resolveAll r ts = ts.mapM (resolve r) := by
  induction ts with
  | nil => rfl
  | cons t ts ih => rw [resolveAll, List.mapM_cons, ih]

end Template

end ActionGrammar
