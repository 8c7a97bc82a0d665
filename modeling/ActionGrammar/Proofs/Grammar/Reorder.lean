import Mathlib
import ActionGrammar.Proofs.Grammar.Closed

/-! # The order of rules

Grammars that differ only in the order of the rules of their nonterminals have
the same rules under other numbers. Renumbering the rules of a derivation with
one of the grammars gives a derivation with the other one.
-/

namespace ActionGrammar

variable {π τ : Type}

theorem exists_equiv_of_perm {α : Type} {l l' : List α} (h : l.Perm l') :
    ∃ σ : Equiv.Perm ℕ, ∀ k, l'[σ k]? = l[k]? := by
  classical
  have hn := h.length_eq
  let e : Equiv.Perm (Fin l.length) :=
    { toFun := fun k => (h.idxBij k).cast hn.symm
      invFun := fun k => h.symm.idxBij (k.cast hn)
      left_inv := fun k => by simp [h.idxBij_symm_idxBij]
      right_inv := fun k => by simp [h.idxBij_idxBij_symm] }
  refine ⟨e.extendDomain Fin.equivSubtype, fun k => ?_⟩
  by_cases hk : k < l.length
  · rw [Equiv.Perm.extendDomain_apply_subtype (p := (· < l.length)) _ _ hk,
      List.getElem?_eq_getElem hk]
    exact List.getElem?_eq_some_iff.mpr ⟨_, h.getElem_idxBij_eq_getElem ⟨k, hk⟩⟩
  · rw [Equiv.Perm.extendDomain_apply_not_subtype (p := (· < l.length)) _ _ hk,
      List.getElem?_eq_none (by omega), List.getElem?_eq_none (by omega)]

def Forest.renumber (σ : NonTerminal → Equiv.Perm ℕ) : Forest τ → Forest τ
  | nil => nil
  | empty rest => .empty (rest.renumber σ)
  | token id x rest => .token id x (rest.renumber σ)
  | node nt k children rest => .node nt (σ nt k) (children.renumber σ) (rest.renumber σ)

namespace Grammar

/-- The grammars differ only in the order of the rules of each nonterminal. -/
structure Reorders (g g' : Grammar π τ) : Prop where
  terminals : g'.terminals = g.terminals
  start : g'.start = g.start
  nonTerminals : List.Forall₂ (fun set set' => set'.name = set.name ∧ set.rules.Perm set'.rules)
    g.nonTerminals.toList g'.nonTerminals.toList

def reverse (g : Grammar π τ) : Grammar π τ :=
  { g with nonTerminals := g.nonTerminals.map fun set => { set with rules := set.rules.reverse } }

theorem reorders_reverse (g : Grammar π τ) : g.Reorders g.reverse where
  terminals := rfl
  start := rfl
  nonTerminals := by
    rw [reverse, Array.toList_map, List.forall₂_map_right_iff, List.forall₂_same]
    exact fun set _ => ⟨rfl, (List.reverse_perm _).symm⟩

/-- No nonterminal has two rules that are the empty string alone. -/
structure OneEpsilon (g : Grammar π τ) : Prop where
  eq : ∀ {nt k k' r r'}, g.rule? nt k = some r → g.rule? nt k' = some r' → r.isEpsilon = true →
    r'.isEpsilon = true → k = k'

/-- The second grammar has the rules of the first one under other numbers. -/
structure Renumbers (σ : NonTerminal → Equiv.Perm ℕ) (g g' : Grammar π τ) : Prop where
  terminals : g'.terminals = g.terminals
  start : g'.start = g.start
  size : g'.nonTerminals.size = g.nonTerminals.size
  rule? : ∀ nt k, g'.rule? nt (σ nt k) = g.rule? nt k

variable {g g' : Grammar π τ} {σ : NonTerminal → Equiv.Perm ℕ}

theorem Reorders.exists_renumbers (h : g.Reorders g') : ∃ σ, Renumbers σ g g' := by
  obtain ⟨hsize, hsets⟩ := List.forall₂_iff_get.mp h.nonTerminals
  simp only [Array.length_toList] at hsize
  have hnt (nt : NonTerminal) : ∃ e : Equiv.Perm ℕ, ∀ k, g'.rule? nt (e k) = g.rule? nt k := by
    simp only [rule?_eq_bind]
    by_cases hi : nt.index < g.nonTerminals.size
    · obtain ⟨-, hperm⟩ := hsets nt.index (by simpa) (by simpa [← hsize])
      obtain ⟨e, he⟩ := exists_equiv_of_perm hperm
      refine ⟨e, fun k => ?_⟩
      rw [Array.getElem?_eq_getElem hi, Array.getElem?_eq_getElem (hsize ▸ hi)]
      exact he k
    · refine ⟨.refl _, fun k => ?_⟩
      rw [Array.getElem?_eq_none (by omega), Array.getElem?_eq_none (by omega)]
      rfl
  choose σ hσ using hnt
  exact ⟨σ, h.terminals, h.start, hsize.symm, hσ⟩

namespace Renumbers

theorem symm (h : Renumbers σ g g') : Renumbers (fun nt => (σ nt).symm) g' g where
  terminals := h.terminals.symm
  start := h.start.symm
  size := h.size.symm
  rule? nt k := by rw [← h.rule?, Equiv.apply_symm_apply]

theorem matches_iff [Token τ] (h : Renumbers σ g g') {id : Terminal.Id} {x : τ} :
    g'.Matches id x ↔ g.Matches id x := by
  rw [Matches, Matches, terminal, terminal, h.terminals]

theorem declares_iff (h : Renumbers σ g g') {s : Symbol} : g'.Declares s ↔ g.Declares s := by
  cases s with
  | terminal => rw [Declares, Declares, h.terminals]
  | nonTerminal => rw [Declares, Declares, h.size]

theorem isClosed (h : Renumbers σ g g') (hg : g.IsClosed) : g'.IsClosed where
  start := by
    rw [h.declares_iff, h.start]
    exact hg.start
  symbols {nt k r} hr s hs := by
    rw [h.declares_iff]
    exact hg.symbols ((h.symm.rule? nt k).trans hr) s hs

theorem oneEpsilon (h : Renumbers σ g g') (hg : g.OneEpsilon) : g'.OneEpsilon where
  eq {nt k k' r r'} hr hr' he he' := by
    rw [← h.symm.rule?] at hr hr'
    exact (σ nt).symm.injective (hg.eq hr hr' he he')

end Renumbers

end Grammar

end ActionGrammar
