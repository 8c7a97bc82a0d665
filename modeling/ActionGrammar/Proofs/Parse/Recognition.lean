import ActionGrammar.Proofs.Grammar.Lookahead

/-! # Recognition

What a parse finds, apart from the values: a sequence of symbols is matched
from a position with a forest and the position behind it, or it is not matched.
A nonterminal is matched by the only rule that matches and is not the empty
string alone, or else by the last one that is. Nothing is found where two rules
match. What is found is a derivation, and there is at most one answer.
-/

namespace ActionGrammar.Grammar

theorem cons_prefix_drop_iff {α : Type} {l b : List α} {x : α} {i : Nat} :
    x :: b <+: l.drop i ↔ l[i]? = some x ∧ b <+: l.drop (i + 1) := by
  rw [← List.drop_drop]
  constructor
  · rintro ⟨t, ht⟩
    have hx : l[i]? = some x := by rw [← List.head?_drop, ← ht]; rfl
    exact ⟨hx, t, by rw [← ht]; rfl⟩
  · rintro ⟨hx, t, ht⟩
    obtain ⟨hi, rfl⟩ := List.getElem?_eq_some_iff.mp hx
    exact ⟨t, by rw [List.cons_append, ht, List.drop_drop, ← List.drop_eq_getElem_cons hi]⟩

theorem append_prefix_drop_iff {α : Type} {l a b : List α} {i : Nat} :
    a ++ b <+: l.drop i ↔ a <+: l.drop i ∧ b <+: l.drop (i + a.length) := by
  induction a generalizing i with
  | nil => simp
  | cons x a ih =>
    rw [List.cons_append, cons_prefix_drop_iff, cons_prefix_drop_iff, ih, List.length_cons,
      Nat.add_assoc, Nat.add_comm 1, and_assoc]

variable {π τ : Type} [Token τ]

/-- What is found from a position: trees and the position behind them, or that nothing matches. -/
inductive Recognizes (g : Grammar π τ) (tokens : List τ) :
    List Symbol → Nat → Option (Forest τ × Nat) → Prop
  | nil {i : Nat} : Recognizes g tokens [] i (some (.nil, i))
  | empty {ss : List Symbol} {i : Nat} {o : Option (Forest τ × Nat)} :
      Recognizes g tokens ss i o →
      Recognizes g tokens (.terminal ⟨0⟩ :: ss) i (o.map fun (f, j) => (.empty f, j))
  | shift {id : Terminal.Id} {x : τ} {ss : List Symbol} {i : Nat} {o : Option (Forest τ × Nat)} :
      tokens[i]? = some x → g.Matches id x → Recognizes g tokens ss (i + 1) o →
      Recognizes g tokens (.terminal id :: ss) i (o.map fun (f, j) => (.token id x f, j))
  | mismatch {id : Terminal.Id} {ss : List Symbol} {i : Nat} : id ≠ ⟨0⟩ →
      (∀ x, tokens[i]? = some x → ¬ g.Matches id x) →
      Recognizes g tokens (.terminal id :: ss) i none
  | fail {nt : NonTerminal} {ss : List Symbol} {i : Nat} :
      (∀ k r, g.rule? nt k = some r → r.isEpsilon = false) →
      (∀ k r, g.rule? nt k = some r → Recognizes g tokens r.symbols i none) →
      Recognizes g tokens (.nonTerminal nt :: ss) i none
  | rule {nt : NonTerminal} {k : Nat} {r : Rule π} {c : Forest τ} {ss : List Symbol} {i m : Nat}
      {o : Option (Forest τ × Nat)} :
      g.rule? nt k = some r → r.isEpsilon = false →
      Recognizes g tokens r.symbols i (some (c, m)) →
      (∀ k' r', g.rule? nt k' = some r' → k' ≠ k → r'.isEpsilon = false →
        Recognizes g tokens r'.symbols i none) →
      Recognizes g tokens ss m o →
      Recognizes g tokens (.nonTerminal nt :: ss) i (o.map fun (f, j) => (.node nt k c f, j))
  | epsilon {nt : NonTerminal} {k : Nat} {r : Rule π} {ss : List Symbol} {i : Nat}
      {o : Option (Forest τ × Nat)} :
      g.rule? nt k = some r → r.isEpsilon = true →
      (∀ k' r', g.rule? nt k' = some r' → r'.isEpsilon = true → k' ≤ k) →
      (∀ k' r', g.rule? nt k' = some r' → r'.isEpsilon = false →
        Recognizes g tokens r'.symbols i none) →
      Recognizes g tokens ss i o →
      Recognizes g tokens (.nonTerminal nt :: ss) i
        (o.map fun (f, j) => (.node nt k (.empty .nil) f, j))

variable {g : Grammar π τ} {tokens : List τ} {ss : List Symbol} {i : Nat}
  {o : Option (Forest τ × Nat)}

theorem Recognizes.derives (h : g.Recognizes tokens ss i o) :
    ∀ f j, o = some (f, j) →
      g.Derives ss f ∧ f.yield <+: tokens.drop i ∧ j = i + f.yield.length := by
  induction h with
  | nil =>
    rintro f j ⟨⟩
    exact ⟨.nil, List.nil_prefix, rfl⟩
  | empty _ ih =>
    intro f j ho
    obtain ⟨⟨f', j'⟩, rfl, ⟨⟩⟩ := Option.map_eq_some_iff.mp ho
    obtain ⟨hd, hy, hj⟩ := ih _ _ rfl
    exact ⟨.empty hd, hy, hj⟩
  | shift hx hm _ ih =>
    intro f j ho
    obtain ⟨⟨f', j'⟩, rfl, ⟨⟩⟩ := Option.map_eq_some_iff.mp ho
    obtain ⟨hd, hy, rfl⟩ := ih _ _ rfl
    exact ⟨.token hm hd, cons_prefix_drop_iff.mpr ⟨hx, hy⟩, by simp [Forest.yield]; omega⟩
  | mismatch => rintro f j ⟨⟩
  | fail => rintro f j ⟨⟩
  | rule hr _ _ _ _ ihr _ ih =>
    intro f j ho
    obtain ⟨⟨f', j'⟩, rfl, ⟨⟩⟩ := Option.map_eq_some_iff.mp ho
    obtain ⟨hc, hcy, rfl⟩ := ihr _ _ rfl
    obtain ⟨hd, hy, rfl⟩ := ih _ _ rfl
    exact ⟨.node hr hc hd, append_prefix_drop_iff.mpr ⟨hcy, hy⟩, by simp [Forest.yield]; omega⟩
  | epsilon hr he _ _ _ _ ih =>
    intro f j ho
    obtain ⟨⟨f', j'⟩, rfl, ⟨⟩⟩ := Option.map_eq_some_iff.mp ho
    obtain ⟨hd, hy, rfl⟩ := ih _ _ rfl
    refine ⟨.node hr ?_ hd, hy, rfl⟩
    rw [symbols_of_isEpsilon he]
    exact .empty .nil

theorem Recognizes.unique (h : g.Recognizes tokens ss i o) :
    ∀ o', g.Recognizes tokens ss i o' → o = o' := by
  induction h with
  | nil =>
    intro o' h'
    cases h'
    rfl
  | empty _ ih =>
    intro o' h'
    cases h' with
    | empty h' => rw [ih _ h']
    | shift _ hm _ => exact absurd rfl hm.1
    | mismatch hid _ => exact absurd rfl hid
  | shift hx hm _ ih =>
    intro o' h'
    cases h' with
    | empty _ => exact absurd rfl hm.1
    | shift hx' _ h' =>
      obtain rfl := Option.some.inj (hx.symm.trans hx')
      rw [ih _ h']
    | mismatch _ hn => exact absurd hm (hn _ hx)
  | mismatch hid hn =>
    intro o' h'
    cases h' with
    | empty _ => exact absurd rfl hid
    | shift hx hm _ => exact absurd hm (hn _ hx)
    | mismatch _ _ => rfl
  | fail he _ ih =>
    intro o' h'
    cases h' with
    | fail _ _ => rfl
    | rule hr _ hc _ _ => exact nomatch ih _ _ hr _ hc
    | epsilon hr he' _ _ _ => simp [he _ _ hr] at he'
  | @rule _ k _ _ _ _ _ _ hr he _ _ _ ihr ihn ih =>
    intro o' h'
    cases h' with
    | fail _ hn => exact nomatch ihr _ (hn _ _ hr)
    | @rule _ k' _ _ _ _ _ _ hr' he' hc' hn' h' =>
      by_cases hk : k = k'
      · subst hk
        obtain rfl := Option.some.inj (hr.symm.trans hr')
        obtain ⟨rfl, rfl⟩ := Prod.mk.inj (Option.some.inj (ihr _ hc'))
        rw [ih _ h']
      · exact nomatch ihr _ (hn' _ _ hr hk he)
    | epsilon _ _ _ hn' _ => exact nomatch ihr _ (hn' _ _ hr he)
  | epsilon hr he hl _ _ ihn ih =>
    intro o' h'
    cases h' with
    | fail he' _ => simp [he' _ _ hr] at he
    | rule hr' he' hc' _ _ => exact nomatch ihn _ _ hr' he' _ hc'
    | epsilon hr' he' hl' _ h' =>
      obtain rfl := Nat.le_antisymm (hl' _ _ hr he) (hl _ _ hr' he')
      rw [ih _ h']

theorem Recognizes.split {s : Symbol} (h : g.Recognizes tokens (s :: ss) i o) :
    g.Recognizes tokens [s] i none ∧ o = none ∨
      ∃ f j o', g.Recognizes tokens [s] i (some (f, j)) ∧ g.Recognizes tokens ss j o' ∧
        o = o'.map fun (f', j') => (f.append f', j') := by
  cases h with
  | empty h => exact .inr ⟨_, _, _, .empty .nil, h, rfl⟩
  | shift hx hm h => exact .inr ⟨_, _, _, .shift hx hm .nil, h, rfl⟩
  | mismatch hid hn => exact .inl ⟨.mismatch hid hn, rfl⟩
  | fail he hn => exact .inl ⟨.fail he hn, rfl⟩
  | rule hr he hc hn h => exact .inr ⟨_, _, _, .rule hr he hc hn .nil, h, rfl⟩
  | epsilon hr he hl hn h => exact .inr ⟨_, _, _, .epsilon hr he hl hn .nil, h, rfl⟩

theorem Recognizes.cons {s : Symbol} {f : Forest τ} {j : Nat}
    (h : g.Recognizes tokens [s] i (some (f, j))) (h' : g.Recognizes tokens ss j o) :
    g.Recognizes tokens (s :: ss) i (o.map fun (f', j') => (f.append f', j')) := by
  generalize ho : some (f, j) = x at h
  cases h with
  | empty h =>
    cases h
    cases ho
    exact .empty h'
  | shift hx hm h =>
    cases h
    cases ho
    exact .shift hx hm h'
  | mismatch => cases ho
  | fail => cases ho
  | rule hr he hc hn h =>
    cases h
    cases ho
    exact .rule hr he hc hn h'
  | epsilon hr he hl hn h =>
    cases h
    cases ho
    exact .epsilon hr he hl hn h'

theorem Recognizes.cons_none {s : Symbol} (h : g.Recognizes tokens [s] i none) :
    g.Recognizes tokens (s :: ss) i none := by
  generalize ho : none = x at h
  cases h with
  | empty h =>
    cases h
    cases ho
  | shift _ _ h =>
    cases h
    cases ho
  | mismatch hid hn => exact .mismatch hid hn
  | fail he hn => exact .fail he hn
  | rule _ _ _ _ h =>
    cases h
    cases ho
  | epsilon _ _ _ _ h =>
    cases h
    cases ho

end ActionGrammar.Grammar
