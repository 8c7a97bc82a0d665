import ActionGrammar.Grammar.Builder
import ActionGrammar.Proofs.Registry.Lookup

/-! # What is built

A grammar is built exactly if the builder has nonterminals, among them the
start, and the rules of each can be finished, which takes a symbol for every
name and overloads for every callee.
-/

namespace ActionGrammar.Builder

variable {π τ : Type} {b : Builder τ} {r : Registry π} {g : Grammar π τ} {name : String}

theorem finishRule_eq_ok_iff {staged : StagedRule} {rule : Rule π} :
    b.finishRule r name staged = .ok rule ↔
      List.Forall₂ (fun n s => b.lookupSymbol name n = .ok s) staged.symbols rule.symbols ∧
        Template.resolveAll r staged.action = .ok rule.action := by
  simp only [finishRule, bind_eq_ok_iff, mapM_eq_ok_iff]
  constructor
  · rintro ⟨symbols, hs, h⟩
    split at h
    · rename_i action ha
      cases h
      exact ⟨hs, ha⟩
    · exact nomatch h
  · rintro ⟨hs, ha⟩
    exact ⟨_, hs, by rw [ha]; rfl⟩

theorem finishRules_eq_ok_iff {rules : List StagedRule} {set : RuleSet π} :
    b.finishRules r (name, rules) = .ok set ↔
      rules ≠ [] ∧ set.name = name ∧
        List.Forall₂ (fun staged rule => b.finishRule r name staged = .ok rule) rules
          set.rules := by
  rw [finishRules]
  by_cases he : rules = []
  · subst he
    exact iff_of_false (fun h => nomatch h) fun h => h.1 rfl
  · have he' : rules.isEmpty = false := by simpa using he
    simp only [he', Bool.false_eq_true, if_false, bind_eq_ok_iff, mapM_eq_ok_iff]
    constructor
    · rintro ⟨rules', hr, h⟩
      cases h
      exact ⟨he, rfl, hr⟩
    · rintro ⟨-, rfl, hr⟩
      exact ⟨_, hr, rfl⟩

/-! ### What can be built -/

theorem lookupSymbol_isOk_iff (name : String) {n : String} :
    (∃ s, b.lookupSymbol name n = .ok s) ↔
      b.hasTerminal n = true ∨ b.hasNonTerminal n = true := by
  rw [hasTerminal, hasNonTerminal, ← List.findIdx?_isSome, ← List.findIdx?_isSome]
  unfold lookupSymbol terminalIndex? nonTerminalIndex?
  cases b.terminals.findIdx? (·.1 == n) <;> cases b.nonTerminals.findIdx? (·.1 == n) <;> simp

theorem finishRule_isOk_iff {staged : StagedRule} :
    (∃ rule, b.finishRule r name staged = .ok rule) ↔
      (∀ n ∈ staged.symbols, b.hasTerminal n = true ∨ b.hasNonTerminal n = true) ∧
        ∀ t ∈ staged.action, ∃ e, Template.resolve r t = .ok e := by
  simp only [← lookupSymbol_isOk_iff name, ← mapM_isOk_iff, mapM_eq_ok_iff,
    ← Template.resolveAll_eq_mapM]
  constructor
  · rintro ⟨⟨symbols, action⟩, h⟩
    obtain ⟨hs, ha⟩ := finishRule_eq_ok_iff.mp h
    exact ⟨⟨symbols, hs⟩, action, ha⟩
  · rintro ⟨⟨symbols, hs⟩, action, ha⟩
    exact ⟨⟨symbols, action⟩, finishRule_eq_ok_iff.mpr ⟨hs, ha⟩⟩

theorem finishRules_isOk_iff {rules : List StagedRule} :
    (∃ set, b.finishRules r (name, rules) = .ok set) ↔
      rules ≠ [] ∧ ∀ staged ∈ rules, ∃ rule, b.finishRule r name staged = .ok rule := by
  rw [← mapM_isOk_iff]
  constructor
  · rintro ⟨⟨name', rules'⟩, h⟩
    obtain ⟨hne, -, hrules⟩ := finishRules_eq_ok_iff.mp h
    exact ⟨hne, rules', mapM_eq_ok_iff.mpr hrules⟩
  · rintro ⟨hne, rules', hrules⟩
    exact ⟨⟨name, rules'⟩, finishRules_eq_ok_iff.mpr ⟨hne, rfl, mapM_eq_ok_iff.mp hrules⟩⟩

theorem lookupSymbol_error {n : String} {e : GrammarError} (h : b.lookupSymbol name n = .error e) :
    e = .undefinedSymbol name n := by
  unfold lookupSymbol at h
  split at h
  · exact nomatch h
  · exact nomatch h
  · exact (Except.error.inj h).symm

theorem finishRules_error {rules : List StagedRule} {e : GrammarError} (hne : rules ≠ [])
    (h : b.finishRules r (name, rules) = .error e) :
    (∃ n, e = .undefinedSymbol name n) ∨ ∃ c, e = .resolve name c := by
  have he : rules.isEmpty = false := by simpa using hne
  simp only [finishRules, he, Bool.false_eq_true, if_false, bind_eq_error_iff] at h
  rcases h with h | ⟨_, -, h⟩
  · obtain ⟨staged, -, h⟩ := exists_of_mapM_eq_error h
    rcases bind_eq_error_iff.mp h with h | ⟨symbols, -, h⟩
    · obtain ⟨n, -, h⟩ := exists_of_mapM_eq_error h
      exact .inl ⟨n, lookupSymbol_error h⟩
    · split at h
      · exact nomatch h
      · exact .inr ⟨_, (Except.error.inj h).symm⟩
  · exact nomatch h

theorem build_eq_ok_iff :
    b.build r = .ok g ↔
      ∃ first rest start sets, b.nonTerminals = first :: rest ∧
        b.nonTerminalIndex? (b.start.getD first.1) = some start ∧
        List.Forall₂ (fun nt set => b.finishRules r nt = .ok set) b.nonTerminals sets ∧
        g = ⟨(b.terminals.map fun (name, token) => ⟨name, token⟩).toArray, sets.toArray,
          ⟨start⟩⟩ := by
  unfold build
  constructor
  · intro h
    split at h
    · exact nomatch h
    · rename_i first rules rest hb
      simp only at h
      split at h
      · exact nomatch h
      · rename_i start hstart
        obtain ⟨sets, hsets, h⟩ := bind_eq_ok_iff.mp h
        rw [mapM_eq_ok_iff] at hsets
        cases h
        exact ⟨(first, rules), rest, start, sets, hb, hstart, hb ▸ hsets, rfl⟩
  · rintro ⟨⟨first, rules⟩, rest, start, sets, hb, hstart, hsets, rfl⟩
    rw [mapM_eq_ok_iff.mpr hsets, hb]
    simp only [hstart]
    rfl

theorem build_isOk_iff :
    (∃ g, b.build (τ := τ) r = .ok g) ↔
      ∃ first rest, b.nonTerminals = first :: rest ∧
        b.hasNonTerminal (b.start.getD first.1) = true ∧
        ∀ entry ∈ b.nonTerminals, ∃ set, b.finishRules r entry = .ok set := by
  simp only [← mapM_isOk_iff, mapM_eq_ok_iff, hasNonTerminal, ← List.findIdx?_isSome,
    Option.isSome_iff_exists]
  constructor
  · rintro ⟨g, h⟩
    obtain ⟨first, rest, start, sets, hcons, hstart, hsets, -⟩ := build_eq_ok_iff.mp h
    exact ⟨first, rest, hcons, ⟨start, hstart⟩, sets, hsets⟩
  · rintro ⟨first, rest, hcons, ⟨start, hstart⟩, sets, hsets⟩
    exact ⟨_, build_eq_ok_iff.mpr ⟨first, rest, start, sets, hcons, hstart, hsets, rfl⟩⟩

theorem build_error {first : String × List StagedRule} {rest : List (String × List StagedRule)}
    {start : Nat} {e : GrammarError} (hb : b.nonTerminals = first :: rest)
    (hstart : b.nonTerminalIndex? (b.start.getD first.1) = some start)
    (hrules : ∀ entry ∈ b.nonTerminals, entry.2 ≠ []) (h : b.build r = .error e) :
    ∃ name, (∃ n, e = .undefinedSymbol name n) ∨ ∃ c, e = .resolve name c := by
  unfold build at h
  split at h
  · rename_i hnil
    exact absurd (hnil.symm.trans hb) (by simp)
  · rename_i hcons
    obtain ⟨rfl, rfl⟩ := List.cons.inj (hcons.symm.trans hb)
    simp only [hstart] at h
    rcases bind_eq_error_iff.mp h with h | ⟨_, -, h⟩
    · obtain ⟨⟨name, rules⟩, hmem, h⟩ := exists_of_mapM_eq_error h
      exact ⟨name, finishRules_error (hrules _ hmem) h⟩
    · exact nomatch h

end ActionGrammar.Builder

namespace ActionGrammar

variable {π τ α : Type}

theorem Staging.build_eq_ok_iff {steps : Staging τ α} {r : Registry π} {g : Grammar π τ} :
    steps.build r = .ok g ↔ ∃ a b, steps.runFrom .empty = (.ok a, b) ∧ b.build r = .ok g := by
  unfold Staging.build
  constructor
  · intro h
    split at h
    · rename_i a b hrun
      exact ⟨a, b, hrun, h⟩
    · exact nomatch h
  · rintro ⟨a, b, hrun, h⟩
    rw [hrun]
    exact h

end ActionGrammar
