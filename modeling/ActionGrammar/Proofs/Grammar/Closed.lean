import ActionGrammar.Grammar.Dump
import ActionGrammar.Proofs.Grammar.Built
import ActionGrammar.Proofs.Grammar.Derivation

/-! # Closed grammars

A grammar is closed if it declares its start and all symbols of its rules. The
grammars that are built are closed.
-/

namespace ActionGrammar

variable {π τ : Type}

namespace Grammar

def Declares (g : Grammar π τ) : Symbol → Prop
  | .terminal id => id.index < g.terminals.size
  | .nonTerminal nt => nt.index < g.nonTerminals.size

structure IsClosed (g : Grammar π τ) : Prop where
  start : g.Declares (.nonTerminal g.start)
  symbols : ∀ {nt k r}, g.rule? nt k = some r → ∀ s ∈ r.symbols, g.Declares s

variable {g : Grammar π τ}

theorem ruleSet_eq_ok {nt : NonTerminal} (h : g.Declares (.nonTerminal nt)) :
    g.ruleSet nt = .ok g.nonTerminals[nt.index] := by
  rw [ruleSet, Array.getElem?_eq_getElem h]

theorem terminal_eq_ok {id : Terminal.Id} (h : g.Declares (.terminal id)) :
    g.terminal id = .ok g.terminals[id.index] := by
  rw [terminal, Array.getElem?_eq_getElem h]

theorem declares_of_terminal {id : Terminal.Id} {t : Terminal τ} (h : g.terminal id = .ok t) :
    g.Declares (.terminal id) := by
  by_contra hn
  rw [terminal, Array.getElem?_eq_none (Nat.le_of_not_lt hn)] at h
  exact nomatch h

theorem rules_eq_ok {nt : NonTerminal} (h : g.Declares (.nonTerminal nt)) :
    g.rules nt = .ok g.nonTerminals[nt.index].rules := by
  rw [rules, ruleSet_eq_ok h]
  rfl

theorem rules_eq_error {nt : NonTerminal} (h : ¬ g.Declares (.nonTerminal nt)) :
    g.rules nt = .error (.nonTerminal nt g.nonTerminals.size) := by
  rw [rules, ruleSet, Array.getElem?_eq_none (Nat.le_of_not_lt h)]
  rfl

theorem nonTerminalName_eq_ok {nt : NonTerminal} (h : g.Declares (.nonTerminal nt)) :
    g.nonTerminalName nt = .ok g.nonTerminals[nt.index].name := by
  rw [nonTerminalName, ruleSet_eq_ok h]
  rfl

theorem symbolName_isOk {s : Symbol} (h : g.Declares s) : ∃ name, g.symbolName s = .ok name := by
  cases s with
  | terminal id => exact ⟨_, by rw [symbolName, terminal_eq_ok h]; rfl⟩
  | nonTerminal nt => exact ⟨_, nonTerminalName_eq_ok h⟩

theorem production_isOk {nt : NonTerminal} {r : Rule π} (h : g.Declares (.nonTerminal nt))
    (hs : ∀ s ∈ r.symbols, g.Declares s) : ∃ text, g.production nt r = .ok text := by
  obtain ⟨names, hn⟩ := mapM_isOk fun s hs' => symbolName_isOk (hs s hs')
  unfold production
  rw [nonTerminalName_eq_ok h, hn]
  exact ⟨_, rfl⟩

end Grammar

namespace Builder

open Grammar

variable {b : Builder τ} {r : Registry π} {g : Grammar π τ}

theorem lookupSymbol_declares {nonTerminal name : String} {s : Symbol}
    (hn : g.nonTerminals.size = b.nonTerminals.length)
    (ht : g.terminals.size = b.terminals.length)
    (h : b.lookupSymbol nonTerminal name = .ok s) : g.Declares s := by
  unfold lookupSymbol at h
  split at h
  · rename_i i hi
    obtain rfl := Except.ok.inj h
    obtain ⟨hlt, -⟩ := List.findIdx?_eq_some_iff_findIdx_eq.mp hi
    exact Nat.lt_of_lt_of_eq hlt ht.symm
  · rename_i i _ hi
    obtain rfl := Except.ok.inj h
    obtain ⟨hlt, -⟩ := List.findIdx?_eq_some_iff_findIdx_eq.mp hi
    exact Nat.lt_of_lt_of_eq hlt hn.symm
  · contradiction

theorem isClosed_of_build (h : b.build r = .ok g) : g.IsClosed := by
  obtain ⟨first, rest, start, sets, -, hstart, hsets, rfl⟩ := build_eq_ok_iff.mp h
  have hn : sets.toArray.size = b.nonTerminals.length := by simpa using hsets.length_eq.symm
  obtain ⟨hlt, -⟩ := List.findIdx?_eq_some_iff_findIdx_eq.mp hstart
  refine ⟨Nat.lt_of_lt_of_eq hlt hn.symm, fun {nt k rule} hr s hs => ?_⟩
  obtain ⟨set, hset, hrule⟩ := rule?_eq_some_iff.mp hr
  obtain ⟨⟨name, staged⟩, -, he⟩ :=
    exists_of_forall₂ hsets (by simpa using Array.mem_of_getElem? hset)
  obtain ⟨-, -, hrules⟩ := finishRules_eq_ok_iff.mp he
  obtain ⟨staged, -, hf⟩ := exists_of_forall₂ hrules (List.mem_of_getElem? hrule)
  obtain ⟨name, -, hs⟩ := exists_of_forall₂ (finishRule_eq_ok_iff.mp hf).1 hs
  exact lookupSymbol_declares hn (by simp) hs

end Builder

end ActionGrammar
