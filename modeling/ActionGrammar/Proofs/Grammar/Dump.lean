import ActionGrammar.Grammar.Dump
import ActionGrammar.Proofs.Grammar.Bound
import ActionGrammar.Proofs.Grammar.Grouping
import ActionGrammar.Proofs.Registry.Names

/-! # The text of a built grammar

A grammar that is built from a declaration is written as the declaration's
rules, group by group. Numbers of symbols and overloads give way to the names
that they were found under.
-/

namespace ActionGrammar

def RuleDecl.text (r : RuleDecl) : String :=
  r.nonTerminal ++ " :" ++ String.join (r.symbols.map fun s => " " ++ Grammar.symbolText s) ++
    " \x7b" ++ String.join (r.action.map fun t => " " ++ t.text ++ ";") ++ " \x7d" ++ "\n"

theorem join_flatMap {α : Type} (f : α → List String) (as : List α) :
    String.join (as.map fun a => String.join (f a)) = String.join (as.flatMap f) := by
  rw [← String.toList_inj]
  simp [List.flatMap_map, List.flatMap_assoc]

namespace Builder

open GrammarDecl

variable {π τ : Type} {b : Builder τ} {r : Registry π} {g : Grammar π τ}

theorem start_of_build (hb : b.build r = .ok g) {entry : String × List StagedRule}
    {rest : List (String × List StagedRule)} (h : b.nonTerminals = entry :: rest)
    (hstart : b.start.getD entry.1 = entry.1) : g.start = ⟨0⟩ := by
  obtain ⟨first, rest', start, sets, hcons, hindex, -, rfl⟩ := build_eq_ok_iff.mp hb
  obtain ⟨rfl, rfl⟩ := List.cons.inj (hcons.symm.trans h)
  rw [nonTerminalIndex?, h, hstart, List.findIdx?_cons, if_pos (beq_self_eq_true _)] at hindex
  cases hindex
  rfl

theorem actionText_of_resolveAll (hr : r.IsDeclared) {ts : List Template}
    {es : List (Resolved π)} (h : Template.resolveAll r ts = .ok es) :
    Grammar.actionText es =
      " \x7b" ++ String.join (ts.map fun t => " " ++ t.text ++ ";") ++ " \x7d" := by
  obtain ⟨hts, -⟩ := Template.eq_mapAll_of_resolveAll hr ts h
  have htext : ∀ e ∈ es, " " ++ e.text ++ ";" =
      " " ++ Template.text (e.map MethodGroup.name) ++ ";" := fun e _ => by
    rw [e.text_eq]
  rw [Grammar.actionText, List.map_congr_left htext, hts, Expr.mapAll_eq_map, List.map_map]
  rfl

theorem ruleText_of_finishRule (hb : b.build r = .ok g) (hr : r.IsDeclared) {nt : NonTerminal}
    {name : String} (hname : g.nonTerminalName nt = .ok name) {staged : StagedRule} {rule : Rule π}
    (h : b.finishRule r name staged = .ok rule) :
    g.ruleText nt rule = .ok (RuleDecl.text ⟨name, staged.symbols, staged.action⟩) := by
  obtain ⟨hnames, haction⟩ := isBoundTo_of_finishRule hb h
  rw [Grammar.ruleText, Grammar.production, hname, hnames]
  simp only [bind, Except.bind, pure, Except.pure, actionText_of_resolveAll hr haction,
    RuleDecl.text, String.append_assoc]

theorem rulesText_of_build (hb : b.build r = .ok g) (hr : r.IsDeclared) {i : Nat}
    {entry : String × List StagedRule} (h : b.nonTerminals[i]? = some entry) :
    g.rulesText ⟨i⟩ = .ok (String.join ((groupRules entry).map RuleDecl.text)) := by
  obtain ⟨set, hset, hf⟩ := ruleSet_of_build hb h
  obtain ⟨-, -, hrules⟩ := finishRules_eq_ok_iff.mp hf
  have hname := nonTerminalName_of_build hb h
  have htexts : set.rules.mapM (g.ruleText ⟨i⟩) = .ok ((groupRules entry).map RuleDecl.text) := by
    rw [mapM_eq_ok_iff, groupRules, List.map_map, List.forall₂_map_right_iff]
    exact (hrules.imp fun _ _ hf => ruleText_of_finishRule hb hr hname hf).flip
  rw [Grammar.rulesText, Grammar.rules, hset]
  simp only [bind, Except.bind, pure, Except.pure, htexts]

theorem allNonTerminals_of_start {g : Grammar π τ} (hstart : g.start = ⟨0⟩)
    (hpos : 0 < g.nonTerminals.size) :
    g.start :: g.allNonTerminals.filter (· != g.start) = g.allNonTerminals := by
  obtain ⟨n, hn⟩ := Nat.exists_eq_succ_of_ne_zero (Nat.ne_of_gt hpos)
  have hall : g.allNonTerminals = ⟨0⟩ :: (List.range n).map fun i => ⟨i + 1⟩ := by
    simp [Grammar.allNonTerminals, hn, List.range_succ_eq_map]
  have hothers : ((List.range n).map fun i => (⟨i + 1⟩ : NonTerminal)).filter (· != ⟨0⟩) =
      (List.range n).map fun i => ⟨i + 1⟩ := by
    rw [List.filter_eq_self, List.forall_mem_map]
    simp
  rw [hstart, hall, List.filter_cons_of_neg (by simp), hothers]

theorem dump_of_build (hb : b.build r = .ok g) (hr : r.IsDeclared) (hstart : g.start = ⟨0⟩) :
    g.dump = .ok (String.join ((ungrouped b.nonTerminals).map RuleDecl.text)) := by
  obtain ⟨hsize, hpos⟩ : g.nonTerminals.size = b.nonTerminals.length ∧
      0 < g.nonTerminals.size := by
    obtain ⟨first, rest, start, sets, hcons, -, hsets, rfl⟩ := build_eq_ok_iff.mp hb
    have hlen := hsets.length_eq
    exact ⟨by simp [hlen], by simp [← hlen, hcons]⟩
  have htexts : g.allNonTerminals.mapM g.rulesText =
      .ok (b.nonTerminals.map fun entry => String.join ((groupRules entry).map RuleDecl.text)) := by
    rw [mapM_eq_ok_iff, List.forall₂_iff_get]
    refine ⟨by simp [Grammar.allNonTerminals, hsize], fun i hi hi' => ?_⟩
    have hi'' : i < b.nonTerminals.length := by simpa using hi'
    simpa [Grammar.allNonTerminals] using
      rulesText_of_build hb hr (List.getElem?_eq_getElem hi'')
  rw [Grammar.dump, allNonTerminals_of_start hstart hpos, htexts]
  simp only [bind, Except.bind, pure, Except.pure, join_flatMap, ungrouped, List.map_flatMap]

end Builder

end ActionGrammar
