import ActionGrammar.Grammar.Basic

/-! # Derivation trees

A nonterminal's tree has a tree for every symbol of one of its rules. Trees
stand side by side in a forest, as the symbols of a rule do. The tokens at the
leaves, from left to right, are what the forest yields.
-/

namespace ActionGrammar

variable {π τ : Type}

/-- Trees side by side, one for every symbol of a sequence. -/
inductive Forest (τ : Type) where
  | nil
  /-- The empty string, and what stands behind it. -/
  | empty (rest : Forest τ)
  /-- A terminal with the token that it matches. -/
  | token (id : Terminal.Id) (x : τ) (rest : Forest τ)
  /-- A nonterminal with the number of its rule and the trees of the rule's symbols. -/
  | node (nt : NonTerminal) (rule : Nat) (children rest : Forest τ)

def Forest.yield : Forest τ → List τ
  | nil => []
  | empty rest => rest.yield
  | token _ x rest => x :: rest.yield
  | node _ _ children rest => children.yield ++ rest.yield

def Forest.append : Forest τ → Forest τ → Forest τ
  | nil, f => f
  | empty rest, f => .empty (rest.append f)
  | token id x rest, f => .token id x (rest.append f)
  | node nt k children rest, f => .node nt k children (rest.append f)

theorem Forest.yield_append (f f' : Forest τ) : (f.append f').yield = f.yield ++ f'.yield := by
  induction f with
  | nil => rfl
  | empty _ ih => exact ih
  | token _ x _ ih => exact congrArg (x :: ·) ih
  | node _ _ _ _ _ ih => simp only [append, yield, ih, List.append_assoc]

namespace Grammar

def rule? (g : Grammar π τ) (nt : NonTerminal) (index : Nat) : Option (Rule π) :=
  match g.rules nt with
  | .ok rules => rules[index]?
  | .error _ => none

theorem rule?_eq_getElem? {g : Grammar π τ} {nt : NonTerminal} {rules : List (Rule π)}
    (h : g.rules nt = .ok rules) (k : Nat) : g.rule? nt k = rules[k]? := by
  rw [rule?, h]

theorem rule?_eq_bind (g : Grammar π τ) (nt : NonTerminal) (k : Nat) :
    g.rule? nt k = g.nonTerminals[nt.index]?.bind fun set => set.rules[k]? := by
  unfold rule? rules ruleSet
  cases g.nonTerminals[nt.index]? <;> rfl

theorem rule?_eq_some_iff {g : Grammar π τ} {nt : NonTerminal} {k : Nat} {r : Rule π} :
    g.rule? nt k = some r ↔
      ∃ set, g.nonTerminals[nt.index]? = some set ∧ set.rules[k]? = some r := by
  rw [rule?_eq_bind, Option.bind_eq_some_iff]

def Matches [Token τ] (g : Grammar π τ) (id : Terminal.Id) (x : τ) : Prop :=
  id ≠ ⟨0⟩ ∧ ∃ t, g.terminal id = .ok t ∧ t.isMatch x = true

theorem symbols_of_isEpsilon {r : Rule π} (h : r.isEpsilon = true) :
    r.symbols = [.terminal ⟨0⟩] := by
  unfold Rule.isEpsilon at h
  split at h
  · rename_i s hs
    rw [hs, show s = .terminal ⟨0⟩ by simpa [Symbol.isEmptyString] using h]
  · contradiction

variable [Token τ]

/-- The trees are derivations of the symbols: a leaf is the empty string or a terminal with a token
that matches it, and a node is a rule of its nonterminal. -/
inductive Derives (g : Grammar π τ) : List Symbol → Forest τ → Prop
  | nil : Derives g [] .nil
  | empty {ss : List Symbol} {f : Forest τ} : Derives g ss f →
      Derives g (.terminal ⟨0⟩ :: ss) (.empty f)
  | token {id : Terminal.Id} {x : τ} {ss : List Symbol} {f : Forest τ} : g.Matches id x →
      Derives g ss f → Derives g (.terminal id :: ss) (.token id x f)
  | node {nt : NonTerminal} {k : Nat} {r : Rule π} {ss : List Symbol} {c f : Forest τ} :
      g.rule? nt k = some r → Derives g r.symbols c → Derives g ss f →
      Derives g (.nonTerminal nt :: ss) (.node nt k c f)

theorem Derives.eq_of_isEpsilon {g : Grammar π τ} {r : Rule π} {c : Forest τ}
    (h : g.Derives r.symbols c) (he : r.isEpsilon = true) : c = .empty .nil := by
  rw [symbols_of_isEpsilon he] at h
  cases h with
  | empty h =>
    cases h
    rfl
  | token hm _ => exact absurd rfl hm.1

theorem Derives.isEpsilon {g : Grammar π τ} {r : Rule π}
    (h : g.Derives r.symbols (.empty .nil : Forest τ)) : r.isEpsilon = true := by
  have hsymbols : r.symbols = [.terminal ⟨0⟩] := by
    generalize r.symbols = ss at h
    cases h with
    | empty h =>
      cases h
      rfl
  simp [Rule.isEpsilon, hsymbols, Symbol.isEmptyString]

theorem Derives.append {g : Grammar π τ} {ss ss' : List Symbol} {f f' : Forest τ}
    (h : g.Derives ss f) (h' : g.Derives ss' f') : g.Derives (ss ++ ss') (f.append f') := by
  induction h with
  | nil => exact h'
  | empty _ ih => exact .empty ih
  | token hm _ ih => exact .token hm ih
  | node hr hc _ _ ih => exact .node hr hc ih

/-- The tokens can be derived from the start. -/
def Generates (g : Grammar π τ) (tokens : List τ) : Prop :=
  ∃ f : Forest τ, g.Derives [.nonTerminal g.start] f ∧ f.yield = tokens

end Grammar

end ActionGrammar
