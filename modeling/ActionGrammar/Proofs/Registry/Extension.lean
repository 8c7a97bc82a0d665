import ActionGrammar.Proofs.Grammar.Built
import ActionGrammar.Proofs.Registry.Names

/-! # Registries with more modules

The first module that knows a type decides, so modules that come behind those of
a registry change nothing that it finds. Templates resolve to the same calls and
builders build the same grammars.
-/

namespace ActionGrammar

variable {π τ : Type} {r r' : Registry π}

namespace Registry

variable {name : String} {d : TypeDef π} {g : MethodGroup π}

theorem findType_of_prefix (h : r.modules <+: r'.modules) (hd : r.findType name = .ok d) :
    r'.findType name = .ok d := by
  obtain ⟨hname, hd⟩ := findType_eq_ok_iff.mp hd
  exact findType_eq_ok_iff.mpr ⟨hname, h.findSome?_eq_some hd⟩

theorem findMethodGroup_of_prefix (h : r.modules <+: r'.modules)
    (hg : r.findMethodGroup name = .ok g) : r'.findMethodGroup name = .ok g := by
  obtain ⟨owner, member, d, hname, hsplit, hd, hg⟩ := findMethodGroup_eq_ok_iff.mp hg
  apply findMethodGroup_eq_ok_iff.mpr
  exact ⟨owner, member, d, hname, hsplit, findType_of_prefix h hd, hg⟩

theorem findConstructors_of_prefix (h : r.modules <+: r'.modules)
    (hg : r.findConstructors name = .ok g) : r'.findConstructors name = .ok g := by
  obtain ⟨d, hd, hg⟩ := findConstructors_eq_ok_iff.mp hg
  exact findConstructors_eq_ok_iff.mpr ⟨d, findType_of_prefix h hd, hg⟩

end Registry

namespace Template

theorem findMethods_of_prefix {name : String} {isStatic : Bool} {g : MethodGroup π}
    (h : r.modules <+: r'.modules) (hg : findMethods r name isStatic = .ok g) :
    findMethods r' name isStatic = .ok g := by
  obtain ⟨hg, hs⟩ := findMethods_eq_ok_iff.mp hg
  exact findMethods_eq_ok_iff.mpr ⟨Registry.findMethodGroup_of_prefix h hg, hs⟩

mutual

theorem resolve_of_prefix (h : r.modules <+: r'.modules) : ∀ (t : Template) {e : Resolved π},
    resolve r t = .ok e → resolve r' t = .ok e
  | .constant _, _, he => he
  | .result _, _, he => he
  | .construct t args, e, he => by
    obtain ⟨g, es, hg, hes, rfl⟩ := resolve_construct_eq_ok_iff.mp he
    have hg := Registry.findConstructors_of_prefix h hg
    exact resolve_construct_eq_ok_iff.mpr ⟨g, es, hg, resolveAll_of_prefix h args hes, rfl⟩
  | .static m args, e, he => by
    obtain ⟨g, es, hg, hes, rfl⟩ := resolve_static_eq_ok_iff.mp he
    have hg := findMethods_of_prefix h hg
    exact resolve_static_eq_ok_iff.mpr ⟨g, es, hg, resolveAll_of_prefix h args hes, rfl⟩
  | .invoke m receiver args, e, he => by
    obtain ⟨g, e', es, hg, he', hes, rfl⟩ := resolve_invoke_eq_ok_iff.mp he
    have hg := findMethods_of_prefix h hg
    have he' := resolve_of_prefix h receiver he'
    exact resolve_invoke_eq_ok_iff.mpr ⟨g, e', es, hg, he', resolveAll_of_prefix h args hes, rfl⟩

theorem resolveAll_of_prefix (h : r.modules <+: r'.modules) : ∀ (ts : List Template)
    {es : List (Resolved π)}, resolveAll r ts = .ok es → resolveAll r' ts = .ok es
  | [], _, hes => hes
  | t :: ts, es, hes => by
    obtain ⟨e, es', he, hes', rfl⟩ := resolveAll_cons_eq_ok_iff.mp hes
    have he := resolve_of_prefix h t he
    exact resolveAll_cons_eq_ok_iff.mpr ⟨e, es', he, resolveAll_of_prefix h ts hes', rfl⟩

end

end Template

namespace Builder

variable {b : Builder τ} {name : String}

theorem finishRule_of_prefix (h : r.modules <+: r'.modules) {staged : StagedRule} {rule : Rule π}
    (hf : b.finishRule r name staged = .ok rule) : b.finishRule r' name staged = .ok rule := by
  obtain ⟨hsymbols, haction⟩ := finishRule_eq_ok_iff.mp hf
  exact finishRule_eq_ok_iff.mpr ⟨hsymbols, Template.resolveAll_of_prefix h _ haction⟩

theorem finishRules_of_prefix (h : r.modules <+: r'.modules) {entry : String × List StagedRule}
    {set : RuleSet π} (hf : b.finishRules r entry = .ok set) :
    b.finishRules r' entry = .ok set := by
  obtain ⟨hne, hname, hrules⟩ := finishRules_eq_ok_iff.mp hf
  apply finishRules_eq_ok_iff.mpr
  exact ⟨hne, hname, hrules.imp fun _ _ hrule => finishRule_of_prefix h hrule⟩

theorem build_of_prefix (h : r.modules <+: r'.modules) {g : Grammar π τ}
    (hb : b.build r = .ok g) : b.build r' = .ok g := by
  obtain ⟨first, rest, start, sets, hnts, hstart, hsets, rfl⟩ := build_eq_ok_iff.mp hb
  have hsets := hsets.imp fun _ _ hset => finishRules_of_prefix h hset
  exact build_eq_ok_iff.mpr ⟨first, rest, start, sets, hnts, hstart, hsets, rfl⟩

end Builder

namespace Registry

/-- What a registry finds, resolves and builds stays as it is when further modules are put behind
its own. -/
theorem conservative_of_prefix (h : r.modules <+: r'.modules) :
    (∀ name d, r.findType name = .ok d → r'.findType name = .ok d) ∧
    (∀ name g, r.findMethodGroup name = .ok g → r'.findMethodGroup name = .ok g) ∧
    (∀ name g, r.findConstructors name = .ok g → r'.findConstructors name = .ok g) ∧
    (∀ (t : Template) (e : Resolved π), t.resolve r = .ok e → t.resolve r' = .ok e) ∧
    ∀ (b : Builder τ) (g : Grammar π τ), b.build r = .ok g → b.build r' = .ok g := by
  refine ⟨fun name d hd => ?_, fun name g hg => ?_, fun name g hg => ?_, fun t e he => ?_,
    fun b g hb => ?_⟩
  · exact findType_of_prefix h hd
  · exact findMethodGroup_of_prefix h hg
  · exact findConstructors_of_prefix h hg
  · exact Template.resolve_of_prefix h t he
  · exact Builder.build_of_prefix h hb

/-- A module with a top-level type under the name of a nested one. -/
def circleModule : Module Unit :=
  ⟨"circles", [(TypeDef.new ⟨"plane.Shape.Circle", []⟩).addMethod "grow"
    ⟨[], .method fun _ _ => pure (.int 0)⟩]⟩

def crowdedRegistry : Registry Unit := ⟨[planeModule, circleModule]⟩

def growBuilder : Builder Unit :=
  ⟨[(emptyStringName, none)], [("S", [⟨[emptyStringName], [growTemplate]⟩])], none⟩

def growGrammar : Grammar Unit Unit where
  terminals := #[⟨emptyStringName, none⟩]
  nonTerminals := #[⟨"S", [⟨[.terminal ⟨0⟩], [.invoke growGroup
    (.construct circleType.constructors [.constant (.int 1)]) [.result 0]]⟩]⟩]
  start := ⟨0⟩

/-- The nested type of the first module is found, though more of its name is a top-level type of the
second one. -/
theorem conservative_circle :
    planeRegistry.modules <+: crowdedRegistry.modules ∧
    crowdedRegistry.findMethodGroup "plane.Shape.Circle.grow" = .ok growGroup ∧
    growBuilder.build crowdedRegistry = .ok growGrammar := by
  have h : planeRegistry.modules <+: crowdedRegistry.modules := ⟨[circleModule], rfl⟩
  obtain ⟨-, hmethod, -, -, hbuild⟩ := conservative_of_prefix h (τ := Unit)
  refine ⟨h, hmethod _ _ ?_, hbuild _ _ ?_⟩
  · rfl
  · rfl

end Registry

end ActionGrammar
