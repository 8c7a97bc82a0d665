import ActionGrammar.Proofs.Grammar.Closed
import ActionGrammar.Proofs.Grammar.Lookahead
import Mathlib.Data.List.Chain
import Mathlib.Data.List.Nodup
import Mathlib.Data.List.Perm.Subperm
import Mathlib.Logic.Relation

/-! # Left edges

A nonterminal has a left edge to the nonterminals that its rules can begin
with, where symbols that derive the empty string may stand in front. It is
left-recursive if a path along left edges leads back to it. Where nonterminals
can be ranked so that left edges lead downwards, none is left-recursive.
-/

namespace ActionGrammar.Grammar

variable {π τ : Type} {g : Grammar π τ} {nt nt' : NonTerminal} {s : Symbol} {ss ss' : List Symbol}

theorem nullable_cons_iff : g.Nullable (s :: ss) ↔ g.Nullable [s] ∧ g.Nullable ss := by
  constructor
  · intro h
    cases h with
    | empty h => exact ⟨.empty .nil, h⟩
    | node hr hn h => exact ⟨.node hr hn .nil, h⟩
  · rintro ⟨hs, h⟩
    cases hs with
    | empty => exact .empty h
    | node hr hn => exact .node hr hn h

theorem nullable_append_iff : g.Nullable (ss ++ ss') ↔ g.Nullable ss ∧ g.Nullable ss' := by
  induction ss with
  | nil => exact (and_iff_right .nil).symm
  | cons s ss ih =>
    rw [List.cons_append, nullable_cons_iff, ih, ← and_assoc, ← nullable_cons_iff]

theorem nullable_terminal_iff {id : Terminal.Id} : g.Nullable [.terminal id] ↔ id = ⟨0⟩ := by
  constructor
  · intro h
    cases h
    rfl
  · rintro rfl
    exact .empty .nil

theorem nullable_nonTerminal_iff :
    g.Nullable [.nonTerminal nt] ↔ ∃ k r, g.rule? nt k = some r ∧ g.Nullable r.symbols := by
  constructor
  · intro h
    cases h with
    | node hr hn => exact ⟨_, _, hr, hn⟩
  · rintro ⟨k, r, hr, hn⟩
    exact .node hr hn .nil

/-- A rule of the first nonterminal has the second one behind symbols that all derive the empty
string. -/
def LeftEdge (g : Grammar π τ) (nt nt' : NonTerminal) : Prop :=
  ∃ k r α β, g.rule? nt k = some r ∧ r.symbols = α ++ .nonTerminal nt' :: β ∧ g.Nullable α

def IsLeftRecursive (g : Grammar π τ) (nt : NonTerminal) : Prop :=
  Relation.TransGen g.LeftEdge nt nt

/-- A path of left edges that closes, and passes through no nonterminal twice. -/
def IsLeftCycle (g : Grammar π τ) (nts : List NonTerminal) : Prop :=
  ∃ nt inner, nts = nt :: inner ++ [nt] ∧ (nt :: inner).Nodup ∧ nts.IsChain g.LeftEdge

theorem transGen_of_isChain {α : Type} {r : α → α → Prop} {a b : α} {l : List α}
    (h : (a :: l ++ [b]).IsChain r) : Relation.TransGen r a b := by
  induction l generalizing a with
  | nil => exact .single (List.isChain_pair.mp h)
  | cons c l ih =>
    obtain ⟨hac, h⟩ := List.isChain_cons_cons.mp h
    exact .head hac (ih h)

theorem IsLeftCycle.isLeftRecursive {nts : List NonTerminal} (h : g.IsLeftCycle nts) :
    ∃ nt, g.IsLeftRecursive nt := by
  obtain ⟨nt, inner, rfl, -, hc⟩ := h
  exact ⟨nt, transGen_of_isChain hc⟩

theorem declares_of_rule? {k : Nat} {r : Rule π} (h : g.rule? nt k = some r) :
    g.Declares (.nonTerminal nt) := by
  obtain ⟨set, hset, -⟩ := rule?_eq_some_iff.mp h
  exact (Array.getElem?_eq_some_iff.mp hset).1

theorem LeftEdge.declares_left (h : g.LeftEdge nt nt') : g.Declares (.nonTerminal nt) := by
  obtain ⟨k, r, α, β, hr, -, -⟩ := h
  exact declares_of_rule? hr

theorem LeftEdge.declares_right (hg : g.IsClosed) (h : g.LeftEdge nt nt') :
    g.Declares (.nonTerminal nt') := by
  obtain ⟨k, r, α, β, hr, hs, -⟩ := h
  exact hg.symbols hr _ (by simp [hs])

theorem length_le_of_declares {nts : List NonTerminal} (hnd : nts.Nodup)
    (hd : ∀ nt ∈ nts, g.Declares (.nonTerminal nt)) : nts.length ≤ g.nonTerminals.size := by
  have hinj : (nts.map NonTerminal.index).Nodup :=
    List.Nodup.map (fun ⟨_⟩ ⟨_⟩ => congrArg NonTerminal.mk) hnd
  have hsub : nts.map NonTerminal.index ⊆ List.range g.nonTerminals.size := by
    intro i hi
    obtain ⟨nt, hnt, rfl⟩ := List.mem_map.mp hi
    exact List.mem_range.mpr (hd nt hnt)
  simpa using (hinj.subperm hsub).length_le

/-- Ranks between one and the number of nonterminals, which left edges lead down. -/
structure IsRank (g : Grammar π τ) (rank : NonTerminal → Nat) : Prop where
  pos : ∀ {nt}, g.Declares (.nonTerminal nt) → 0 < rank nt
  le_size : ∀ nt, rank nt ≤ g.nonTerminals.size
  lt_of_leftEdge : ∀ {nt nt'}, g.LeftEdge nt nt' → rank nt' < rank nt

theorem IsRank.lt_of_transGen {rank : NonTerminal → Nat} (h : g.IsRank rank)
    (ht : Relation.TransGen g.LeftEdge nt nt') : rank nt' < rank nt := by
  induction ht with
  | single he => exact h.lt_of_leftEdge he
  | tail _ he ih => exact Nat.lt_trans (h.lt_of_leftEdge he) ih

theorem IsRank.not_isLeftRecursive {rank : NonTerminal → Nat} (h : g.IsRank rank) :
    ¬ g.IsLeftRecursive nt := fun ht => Nat.lt_irrefl _ (h.lt_of_transGen ht)

end ActionGrammar.Grammar
