import ActionGrammar.Proofs.Grammar.Derivation

/-! # Lookahead sets

The terminals that a sequence of symbols can begin with, and those that can
stand behind a nonterminal, as the least sets closed under the rules. A grammar
is LL(1) if these sets tell the rules of every nonterminal apart.
-/

namespace ActionGrammar.Grammar

variable {π τ : Type}

inductive Nullable (g : Grammar π τ) : List Symbol → Prop
  | nil : Nullable g []
  | empty {ss : List Symbol} : Nullable g ss → Nullable g (.terminal ⟨0⟩ :: ss)
  | node {nt : NonTerminal} {k : Nat} {r : Rule π} {ss : List Symbol} :
      g.rule? nt k = some r → Nullable g r.symbols → Nullable g ss →
      Nullable g (.nonTerminal nt :: ss)

/-- What the symbols derive can begin with the terminal. -/
inductive First (g : Grammar π τ) : List Symbol → Terminal.Id → Prop
  | terminal {id : Terminal.Id} {ss : List Symbol} : id ≠ ⟨0⟩ → First g (.terminal id :: ss) id
  | node {nt : NonTerminal} {k : Nat} {r : Rule π} {ss : List Symbol} {a : Terminal.Id} :
      g.rule? nt k = some r → First g r.symbols a → First g (.nonTerminal nt :: ss) a
  | skip {s : Symbol} {ss : List Symbol} {a : Terminal.Id} :
      Nullable g [s] → First g ss a → First g (s :: ss) a

inductive Reachable (g : Grammar π τ) : NonTerminal → Prop
  | start : Reachable g g.start
  | step {nt nt' : NonTerminal} {k : Nat} {r : Rule π} : Reachable g nt →
      g.rule? nt k = some r → .nonTerminal nt' ∈ r.symbols → Reachable g nt'

/-- The terminal, or else the end of input, can stand behind the nonterminal. -/
inductive Follow (g : Grammar π τ) : NonTerminal → Option Terminal.Id → Prop
  | finish : Follow g g.start none
  | next {nt nt' : NonTerminal} {k : Nat} {r : Rule π} {α β : List Symbol} {a : Terminal.Id} :
      Reachable g nt → g.rule? nt k = some r → r.symbols = α ++ .nonTerminal nt' :: β →
      First g β a → Follow g nt' (some a)
  | last {nt nt' : NonTerminal} {k : Nat} {r : Rule π} {α β : List Symbol}
      {a : Option Terminal.Id} :
      Follow g nt a → g.rule? nt k = some r → r.symbols = α ++ .nonTerminal nt' :: β →
      Nullable g β → Follow g nt' a

/-- One token of lookahead decides between the rules of every nonterminal. -/
structure IsLL1 (g : Grammar π τ) : Prop where
  first_disjoint : ∀ {nt k k' r r' a}, g.rule? nt k = some r → g.rule? nt k' = some r' →
    g.First r.symbols a → g.First r'.symbols a → k = k'
  nullable_unique : ∀ {nt k k' r r'}, g.rule? nt k = some r → g.rule? nt k' = some r' →
    g.Nullable r.symbols → g.Nullable r'.symbols → k = k'
  first_not_follow : ∀ {nt k k' r r' a}, g.rule? nt k = some r → g.rule? nt k' = some r' →
    k ≠ k' → g.Nullable r.symbols → g.First r'.symbols a → ¬ g.Follow nt (some a)

/-- Where there is a choice of rules, only the empty string alone derives the empty string. -/
def NullableIsEpsilon (g : Grammar π τ) : Prop :=
  ∀ {nt k k' r r'}, g.rule? nt k = some r → g.rule? nt k' = some r' → k ≠ k' →
    g.Nullable r.symbols → r.isEpsilon = true

variable {g : Grammar π τ}

theorem Nullable.of_isEpsilon {r : Rule π} (h : r.isEpsilon = true) : g.Nullable r.symbols := by
  rw [symbols_of_isEpsilon h]
  exact .empty .nil

variable [Token τ]

theorem Derives.nullable {ss : List Symbol} {f : Forest τ} (h : g.Derives ss f)
    (hf : f.yield = []) : g.Nullable ss := by
  induction h with
  | nil => exact .nil
  | empty _ ih => exact .empty (ih hf)
  | token => simp [Forest.yield] at hf
  | node hr _ _ ih ih' =>
    obtain ⟨hc, hf⟩ := List.append_eq_nil_iff.mp hf
    exact .node hr (ih hc) (ih' hf)

theorem Nullable.exists_derives {ss : List Symbol} (h : g.Nullable ss) :
    ∃ f : Forest τ, g.Derives ss f ∧ f.yield = [] := by
  induction h with
  | nil => exact ⟨.nil, .nil, rfl⟩
  | empty _ ih =>
    obtain ⟨f, hf, hy⟩ := ih
    exact ⟨.empty f, .empty hf, hy⟩
  | node hr _ _ ih ih' =>
    obtain ⟨c, hc, hcy⟩ := ih
    obtain ⟨f, hf, hfy⟩ := ih'
    exact ⟨.node _ _ c f, .node hr hc hf, List.append_eq_nil_iff.mpr ⟨hcy, hfy⟩⟩

theorem Derives.first {ss : List Symbol} {f : Forest τ} {x : τ} {xs : List τ}
    (h : g.Derives ss f) (hf : f.yield = x :: xs) : ∃ a, g.First ss a ∧ g.Matches a x := by
  induction h generalizing xs with
  | nil => simp [Forest.yield] at hf
  | empty _ ih =>
    obtain ⟨a, ha, hx⟩ := ih hf
    exact ⟨a, .skip (.empty .nil) ha, hx⟩
  | token hm _ =>
    obtain ⟨rfl, -⟩ := List.cons.inj hf
    exact ⟨_, .terminal hm.1, hm⟩
  | @node nt k r ss c f hr hc _ ih ih' =>
    rcases List.append_eq_cons_iff.mp hf with ⟨he, hf⟩ | ⟨ys, he, -⟩
    · obtain ⟨a, ha, hx⟩ := ih' hf
      exact ⟨a, .skip (.node hr (hc.nullable he) .nil) ha, hx⟩
    · obtain ⟨a, ha, hx⟩ := ih he
      exact ⟨a, .node hr ha, hx⟩

end ActionGrammar.Grammar
