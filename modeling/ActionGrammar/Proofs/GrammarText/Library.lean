import ActionGrammar.GrammarText.Part
import ActionGrammar.Expr.Resolve
import ActionGrammar.Proofs.Registry.Module

/-! # The library of parts

The callables that put declarations together, as a registry with the library
finds them by their names.
-/

namespace ActionGrammar.Part

variable {ν : Type} (types : PartTypes)

def only (name : String) (receiver : Option ValueKind) (params : List ValueKind)
    (body : Body (Payload ν)) : MethodGroup (Payload ν) :=
  ⟨name, receiver, [⟨params, body⟩]⟩

namespace Callee

def newGrammar : MethodGroup (Payload ν) :=
  only "Meta.Definition" none [] (.static fun _ => new types.grammar (.grammar .empty))

def addRule : MethodGroup (Payload ν) :=
  only "Meta.Definition.add_rule" (some (.native types.grammar)) [.native types.rule]
    (.method (Part.addRule types))

def setStart : MethodGroup (Payload ν) :=
  only "Meta.Definition.set_start" (some (.native types.grammar)) [.native types.rule]
    (.method (Part.setStart types))

def newRule : MethodGroup (Payload ν) :=
  only "Meta.Rule" none [.str, .native types.names, .native types.exprs]
    (.static (Part.newRule types))

def newNames : MethodGroup (Payload ν) :=
  only "Meta.Names" none [] (.static fun _ => new types.names (.names []))

def prependName : MethodGroup (Payload ν) :=
  only "Meta.Names.prepend" (some (.native types.names)) [.str] (.method (Part.prependName types))

def newExprs : MethodGroup (Payload ν) :=
  only "Meta.Exprs" none [] (.static fun _ => new types.exprs (.exprs []))

def prependExpr : MethodGroup (Payload ν) :=
  only "Meta.Exprs.prepend" (some (.native types.exprs)) [.native types.expr]
    (.method (Part.prependExpr types))

def construct : MethodGroup (Payload ν) :=
  only "Meta.Expr.construct" (some (.native types.expr)) [.native types.names, .native types.exprs]
    (.static (newConstruct types))

def static : MethodGroup (Payload ν) :=
  only "Meta.Expr.call" (some (.native types.expr)) [.native types.names, .native types.exprs]
    (.static (newStatic types))

def invoke : MethodGroup (Payload ν) :=
  only "Meta.Expr.invoke" (some (.native types.expr))
    [.native types.names, .native types.expr, .native types.exprs] (.static (newInvoke types))

def result : MethodGroup (Payload ν) :=
  only "Meta.Expr.variable" (some (.native types.expr)) [.int] (.static (newResult types))

def constant : MethodGroup (Payload ν) :=
  only "Meta.Expr.constant" (some (.native types.expr)) [.any] (.static (newConstant types))

end Callee

def decls : List (TypeDecl (Payload ν)) :=
  [grammarDecl types, ruleDecl types, namesDecl types, exprsDecl types, exprDecl types]

def declNames : List String :=
  ["Meta.Definition", "Meta.Rule", "Meta.Names", "Meta.Exprs", "Meta.Expr"]

theorem map_name_decls :
    (decls types : List (TypeDecl (Payload ν))).map TypeDecl.name = declNames := rfl

def loaded : Registry (Payload ν) := ⟨[⟨"bootgram.meta", (decls types).map TypeDecl.typeDef⟩]⟩

theorem isFlat_decls : ∀ d ∈ (decls types : List (TypeDecl (Payload ν))), d.IsFlat := by
  have hname : ∀ n ∈ declNames, DottedName.isWellFormed n = true := by decide
  intro d hd
  refine ⟨hname _ (map_name_decls types ▸ List.mem_map_of_mem hd), ?_⟩
  revert d
  simp [decls, grammarDecl, ruleDecl, namesDecl, exprsDecl, exprDecl, TypeDecl.ofNative,
    Member.IsFlat]
  decide

theorem pairwise_decls :
    (decls types : List (TypeDecl (Payload ν))).Pairwise fun d d' => d.name ≠ d'.name := by
  have hname : declNames.Pairwise (· ≠ ·) := by decide
  exact List.pairwise_map.mp (map_name_decls types ▸ hname)

theorem library_eq_ok :
    library types =
      .ok ⟨"bootgram.meta", (decls types : List (TypeDecl (Payload ν))).map TypeDecl.typeDef⟩ :=
  Module.ofDecls_eq_ok (isFlat_decls types) (pairwise_decls types)

variable {types} {d : TypeDecl (Payload ν)} {g : MethodGroup (Payload ν)}

theorem findType_loaded (hd : d ∈ decls types) :
    (loaded types).findType d.name = .ok d.typeDef := by
  have hname : ∀ n ∈ declNames, DottedName.isWellFormed n = true := by decide
  exact Registry.findType_typeDef hd (pairwise_decls types)
    (hname d.name (map_name_decls types ▸ List.mem_map_of_mem hd))

theorem findConstructors_loaded (hd : d ∈ decls types) (hg : d.typeDef.constructors = g)
    (hne : g.overloads.isEmpty = false) : (loaded types).findConstructors d.name = .ok g := by
  simp only [Registry.findConstructors, findType_loaded hd, bind, Except.bind, hg, hne]
  rfl

theorem findMethods_loaded {method : String} {isStatic : Bool} (member : String)
    (hd : d ∈ decls types) (hm : DottedName.isWellFormed method = true)
    (hsplit : DottedName.splitMember? method = some (d.name, member))
    (hg : d.typeDef.method? member = some g) (hs : g.has isStatic = true) :
    Template.findMethods (loaded types) method isStatic = .ok g := by
  have hfind : (loaded types).findMethodGroup method = .ok g :=
    Registry.findMethodGroup_typeDef (findType_loaded hd) hm hsplit hg
  simp only [Template.findMethods, hfind, bind, Except.bind, hs, if_true]

variable (types)

theorem findConstructors_eq_ok :
    ∀ x ∈ [("Meta.Definition", Callee.newGrammar types), ("Meta.Rule", Callee.newRule types),
        ("Meta.Names", Callee.newNames types), ("Meta.Exprs", Callee.newExprs types)],
      (loaded types : Registry (Payload ν)).findConstructors x.1 = .ok x.2 := by
  simp only [List.forall_mem_cons]
  refine ⟨?_, ?_, ?_, ?_, fun _ h => nomatch h⟩
  · exact findConstructors_loaded (d := grammarDecl types) (by simp [decls]) rfl rfl
  · exact findConstructors_loaded (d := ruleDecl types) (by simp [decls]) rfl rfl
  · exact findConstructors_loaded (d := namesDecl types) (by simp [decls]) rfl rfl
  · exact findConstructors_loaded (d := exprsDecl types) (by simp [decls]) rfl rfl

theorem findMethods_eq_ok :
    ∀ x ∈ [("Meta.Definition.add_rule", Callee.addRule types),
        ("Meta.Definition.set_start", Callee.setStart types),
        ("Meta.Names.prepend", Callee.prependName types),
        ("Meta.Exprs.prepend", Callee.prependExpr types)],
      Template.findMethods (loaded types : Registry (Payload ν)) x.1 false = .ok x.2 := by
  have hg : grammarDecl types ∈ (decls types : List (TypeDecl (Payload ν))) := by simp [decls]
  have hn : namesDecl types ∈ (decls types : List (TypeDecl (Payload ν))) := by simp [decls]
  have he : exprsDecl types ∈ (decls types : List (TypeDecl (Payload ν))) := by simp [decls]
  simp only [List.forall_mem_cons]
  refine ⟨?_, ?_, ?_, ?_, fun _ h => nomatch h⟩
  · exact findMethods_loaded "add_rule" hg (by decide) (by rfl) rfl rfl
  · exact findMethods_loaded "set_start" hg (by decide) (by rfl) rfl rfl
  · exact findMethods_loaded "prepend" hn (by decide) (by rfl) rfl rfl
  · exact findMethods_loaded "prepend" he (by decide) (by rfl) rfl rfl

theorem findStatics_eq_ok :
    ∀ x ∈ [("Meta.Expr.construct", Callee.construct types),
        ("Meta.Expr.call", Callee.static types), ("Meta.Expr.invoke", Callee.invoke types),
        ("Meta.Expr.variable", Callee.result types),
        ("Meta.Expr.constant", Callee.constant types)],
      Template.findMethods (loaded types : Registry (Payload ν)) x.1 true = .ok x.2 := by
  have hd : exprDecl types ∈ (decls types : List (TypeDecl (Payload ν))) := by simp [decls]
  simp only [List.forall_mem_cons]
  refine ⟨?_, ?_, ?_, ?_, ?_, fun _ h => nomatch h⟩
  · exact findMethods_loaded "construct" hd (by decide) (by rfl) rfl rfl
  · exact findMethods_loaded "call" hd (by decide) (by rfl) rfl rfl
  · exact findMethods_loaded "invoke" hd (by decide) (by rfl) rfl rfl
  · exact findMethods_loaded "variable" hd (by decide) (by rfl) rfl rfl
  · exact findMethods_loaded "constant" hd (by decide) (by rfl) rfl rfl

end ActionGrammar.Part
