import ActionGrammar.Proofs.Expr.Purity
import ActionGrammar.Proofs.Parse.Evaluation
import ActionGrammar.Proofs.Parse.Recognition

/-! # Results and the symbols they are of

The symbols of a rule that matched have a result each. It is null for the empty
string and for a token that carries no value, but not for a nonterminal, because
no action yields null.
-/

namespace ActionGrammar.Grammar

variable {π τ : Type} [Token τ] [TokenValue π τ]

/-- The values are the results of symbols that match the tokens from one position to the other. -/
inductive Fills (g : Grammar π τ) (tokens : List τ) :
    List Symbol → Nat → List Value → Nat → Prop
  | nil {i : Nat} : Fills g tokens [] i [] i
  | empty {ss : List Symbol} {vs : List Value} {i j : Nat} : Fills g tokens ss i vs j →
      Fills g tokens (.terminal ⟨0⟩ :: ss) i (.null :: vs) j
  | token {id : Terminal.Id} {x : τ} {v : Option Value} {s s' : Store π} {ss : List Symbol}
      {vs : List Value} {i j : Nat} : tokens[i]? = some x → g.Matches id x →
      TokenValue.value? x s = (v, s') → Fills g tokens ss (i + 1) vs j →
      Fills g tokens (.terminal id :: ss) i (v.getD .null :: vs) j
  | nonTerminal {nt : NonTerminal} {f : Forest τ} {v : Value} {ss : List Symbol}
      {vs : List Value} {i m j : Nat} :
      g.Recognizes tokens [.nonTerminal nt] i (some (f, m)) → v.isNull = false →
      Fills g tokens ss m vs j → Fills g tokens (.nonTerminal nt :: ss) i (v :: vs) j

variable {g : Grammar π τ} {tokens : List τ} {ss : List Symbol} {f : Forest τ} {vs : List Value}
  {s t : Store π} {i j : Nat}

theorem Fills.length_eq (h : g.Fills tokens ss i vs j) : vs.length = ss.length := by
  induction h with
  | nil => rfl
  | empty _ ih => exact congrArg (· + 1) ih
  | token _ _ _ _ ih => exact congrArg (· + 1) ih
  | nonTerminal _ _ _ ih => exact congrArg (· + 1) ih

def HasNoValue (π : Type) {τ : Type} [TokenValue π τ] (x : τ) : Prop :=
  ∃ (s s' : Store π) (v : Option Value), TokenValue.value? x s = (v, s') ∧ ∀ w ∈ v, w.isNull = true

/-- A result that is null is that of the empty string, or of a token without a value, which stands
behind what the symbols in front match. -/
theorem Fills.of_isNull (h : g.Fills tokens ss i vs j) {k : Nat} {v : Value}
    (hv : vs[k]? = some v) (hnull : v.isNull = true) :
    ss[k]? = some (.terminal ⟨0⟩) ∨ ∃ id m x, ss[k]? = some (.terminal id) ∧
      g.Fills tokens (ss.take k) i (vs.take k) m ∧ tokens[m]? = some x ∧ g.Matches id x ∧
      HasNoValue π x := by
  induction h generalizing k with
  | nil => exact nomatch hv
  | empty _ ih =>
    cases k with
    | zero => exact .inl rfl
    | succ k =>
      refine (ih hv).imp_right ?_
      rintro ⟨id, m, x, hs, hf, hx⟩
      exact ⟨id, m, x, hs, .empty hf, hx⟩
  | @token id x o s s' _ _ i _ hx hm hval _ ih =>
    cases k with
    | zero =>
      cases hv
      refine .inr ⟨id, i, x, rfl, .nil, hx, hm, s, s', o, hval, ?_⟩
      rintro w ⟨⟩
      exact hnull
    | succ k =>
      refine (ih hv).imp_right ?_
      rintro ⟨id, m, x, hs, hf, hx'⟩
      exact ⟨id, m, x, hs, .token hx hm hval hf, hx'⟩
  | nonTerminal hr hne _ ih =>
    cases k with
    | zero =>
      cases hv
      exact nomatch hne.symm.trans hnull
    | succ k =>
      refine (ih hv).imp_right ?_
      rintro ⟨id, m, x, hs, hf, hx⟩
      exact ⟨id, m, x, hs, .nonTerminal hr hne hf, hx⟩

theorem Evaluates.fills (h : g.Evaluates tokens ss s f vs t)
    (hr : g.Recognizes tokens ss i (some (f, j))) : g.Fills tokens ss i vs j := by
  generalize ho : some (f, j) = o at hr
  induction h generalizing i o with
  | nil =>
    cases hr
    cases ho
    exact .nil
  | empty _ ih =>
    cases hr with
    | empty h =>
      obtain ⟨⟨f', j'⟩, rfl, ⟨⟩⟩ := Option.map_eq_some_iff.mp ho.symm
      exact .empty (ih _ rfl h)
    | shift _ hm _ => exact absurd rfl hm.1
    | mismatch => cases ho
  | token _ hm hval _ ih =>
    cases hr with
    | empty _ => exact absurd rfl hm.1
    | shift hx hm h =>
      obtain ⟨⟨f', j'⟩, rfl, ⟨⟩⟩ := Option.map_eq_some_iff.mp ho.symm
      exact .token hx hm hval (ih _ rfl h)
    | mismatch => cases ho
  | node _ _ hact _ _ ih =>
    have hne := Resolved.isNull_of_evalAction hact
    cases hr with
    | fail => cases ho
    | rule hr he hc hn h =>
      obtain ⟨⟨f', j'⟩, rfl, ⟨⟩⟩ := Option.map_eq_some_iff.mp ho.symm
      exact .nonTerminal (.rule hr he hc hn .nil) hne (ih _ rfl h)
    | epsilon hr he hl hn h =>
      obtain ⟨⟨f', j'⟩, rfl, ⟨⟩⟩ := Option.map_eq_some_iff.mp ho.symm
      exact .nonTerminal (.epsilon hr he hl hn .nil) hne (ih _ rfl h)
  | abandon _ _ _ ih => exact ih o ho hr

end ActionGrammar.Grammar
