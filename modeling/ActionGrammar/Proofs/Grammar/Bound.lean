import ActionGrammar.GrammarText.Declaration
import ActionGrammar.Proofs.Grammar.Built

/-! # What a built grammar is bound to

Numbers take the place of names when a grammar is built. Every nonterminal and
every symbol of a rule is still found under the name that it was registered or
used by, and the callees of an action under theirs.
-/

namespace ActionGrammar

variable {π τ : Type}

/-- The rule has the declared symbols, and the declared action with its callees resolved. -/
structure RuleDecl.IsBoundTo (g : Grammar π τ) (r : Registry π) (decl : RuleDecl)
    (rule : Rule π) : Prop where
  symbols : rule.symbols.mapM g.symbolName = .ok decl.symbols
  action : Template.resolveAll r decl.action = .ok rule.action

namespace Builder

variable {b : Builder τ} {r : Registry π} {g : Grammar π τ}

theorem names_of_build (hb : b.build r = .ok g) :
    g.nonTerminals.toList.map RuleSet.name = b.nonTerminals.map Prod.fst := by
  obtain ⟨_, _, _, sets, -, -, hsets, rfl⟩ := build_eq_ok_iff.mp hb
  rw [← List.forall₂_eq_eq_eq, List.forall₂_map_left_iff, List.forall₂_map_right_iff]
  exact (hsets.imp fun _ _ hf => (finishRules_eq_ok_iff.mp hf).2.1.symm).flip.imp
    fun _ _ => Eq.symm

theorem ruleSet_of_build (hb : b.build r = .ok g) {i : Nat} {entry : String × List StagedRule}
    (h : b.nonTerminals[i]? = some entry) :
    ∃ set, g.ruleSet ⟨i⟩ = .ok set ∧ b.finishRules r entry = .ok set := by
  obtain ⟨first, rest, start, sets, -, -, hsets, rfl⟩ := build_eq_ok_iff.mp hb
  obtain ⟨hlen, hget⟩ := List.forall₂_iff_get.mp hsets
  obtain ⟨hi, rfl⟩ := List.getElem?_eq_some_iff.mp h
  have hi' : i < sets.length := hlen ▸ hi
  exact ⟨sets[i], by simp [Grammar.ruleSet, hi'], hget i hi hi'⟩

theorem nonTerminalName_of_build (hb : b.build r = .ok g) {i : Nat}
    {entry : String × List StagedRule} (h : b.nonTerminals[i]? = some entry) :
    g.nonTerminalName ⟨i⟩ = .ok entry.1 := by
  obtain ⟨set, hset, hf⟩ := ruleSet_of_build hb h
  rw [Grammar.nonTerminalName, hset]
  exact congrArg Except.ok (finishRules_eq_ok_iff.mp hf).2.1

theorem symbolName_of_lookupSymbol (hb : b.build r = .ok g) {nonTerminal name : String}
    {s : Symbol} (h : b.lookupSymbol nonTerminal name = .ok s) : g.symbolName s = .ok name := by
  unfold lookupSymbol at h
  split at h
  · rename_i i hi
    cases h
    obtain ⟨hlt, hname, -⟩ := List.findIdx?_eq_some_iff_getElem.mp hi
    obtain ⟨first, rest, start, sets, -, -, -, rfl⟩ := build_eq_ok_iff.mp hb
    have hname : b.terminals[i].1 = name := eq_of_beq hname
    simp [Grammar.symbolName, Grammar.terminal, hlt, hname, bind, Except.bind, pure, Except.pure]
  · rename_i i _ hi
    cases h
    obtain ⟨hlt, hname, -⟩ := List.findIdx?_eq_some_iff_getElem.mp hi
    have hname : b.nonTerminals[i].1 = name := eq_of_beq hname
    exact hname ▸ nonTerminalName_of_build hb (List.getElem?_eq_getElem hlt)
  · cases h

theorem isBoundTo_of_finishRule (hb : b.build r = .ok g) {name : String} {staged : StagedRule}
    {rule : Rule π} (h : b.finishRule r name staged = .ok rule) :
    RuleDecl.IsBoundTo g r ⟨name, staged.symbols, staged.action⟩ rule := by
  obtain ⟨hsymbols, haction⟩ := finishRule_eq_ok_iff.mp h
  have hnames := hsymbols.imp fun _ _ hs => symbolName_of_lookupSymbol hb hs
  exact ⟨mapM_eq_ok_iff.mpr hnames.flip, haction⟩

end Builder

end ActionGrammar
