import ActionGrammar.Expr.Eval
import ActionGrammar.Proofs.Grammar.Derivation

/-! # Values of derivations

The values of a forest are computed bottom-up by the actions of its rules. A
parse runs the same actions, but in between it may evaluate other trees, which
it abandons.
-/

namespace ActionGrammar

variable {π τ : Type}

/-- What the action of a rule is run on. -/
def Rule.inputs (r : Rule π) (results : List Value) : List Value :=
  if r.isEpsilon then [] else results

theorem Rule.inputs_of_isEpsilon {r : Rule π} (h : r.isEpsilon = true) (results : List Value) :
    r.inputs results = [] := if_pos h

theorem Rule.inputs_of_not_isEpsilon {r : Rule π} (h : r.isEpsilon = false)
    (results : List Value) : r.inputs results = results :=
  if_neg (Bool.not_eq_true _ ▸ h)

def Grammar.nodeValue (g : Grammar π τ) (nt : NonTerminal) (k : Nat) (results : List Value) :
    Effect π EvalError Value :=
  match g.rule? nt k with
  | some r => Resolved.evalAction (r.inputs results) r.action
  | none => pure .null

theorem Grammar.nodeValue_eq {g : Grammar π τ} {nt : NonTerminal} {k : Nat} {r : Rule π}
    (h : g.rule? nt k = some r) (results : List Value) :
    g.nodeValue nt k results = Resolved.evalAction (r.inputs results) r.action := by
  rw [nodeValue, h]

variable [Token τ] [TokenValue π τ]

/-- The values of the trees from left to right, children before parents. -/
def Forest.values (g : Grammar π τ) : Forest τ → Effect π EvalError (List Value)
  | nil => pure []
  | empty rest => do return .null :: (← rest.values g)
  | token _ x rest => do
    let v ← Attempt.ofState (TokenValue.value? x)
    return v.getD .null :: (← rest.values g)
  | node nt k children rest => do
    let results ← children.values g
    let v ← g.nodeValue nt k results
    return v :: (← rest.values g)

namespace Grammar

/-- From one store to the other, the trees are evaluated to the values. Before any of them, other
trees may be evaluated and abandoned. -/
inductive Evaluates (g : Grammar π τ) (tokens : List τ) :
    List Symbol → Store π → Forest τ → List Value → Store π → Prop
  | nil {s : Store π} : Evaluates g tokens [] s .nil [] s
  | empty {ss : List Symbol} {f : Forest τ} {vs : List Value} {s t : Store π} :
      Evaluates g tokens ss s f vs t →
      Evaluates g tokens (.terminal ⟨0⟩ :: ss) s (.empty f) (.null :: vs) t
  | token {id : Terminal.Id} {x : τ} {v : Option Value} {ss : List Symbol} {f : Forest τ}
      {vs : List Value} {s s' t : Store π} :
      x ∈ tokens → g.Matches id x → TokenValue.value? x s = (v, s') →
      Evaluates g tokens ss s' f vs t →
      Evaluates g tokens (.terminal id :: ss) s (.token id x f) (v.getD .null :: vs) t
  | node {nt : NonTerminal} {k : Nat} {r : Rule π} {results : List Value} {v : Value}
      {ss : List Symbol} {c f : Forest τ} {vs : List Value} {s s' s'' t : Store π} :
      g.rule? nt k = some r → Evaluates g tokens r.symbols s c results s' →
      (Resolved.evalAction (r.inputs results) r.action).runFrom s' = (.ok v, s'') →
      Evaluates g tokens ss s'' f vs t →
      Evaluates g tokens (.nonTerminal nt :: ss) s (.node nt k c f) (v :: vs) t
  | abandon {ss ss' : List Symbol} {f f' : Forest τ} {vs vs' : List Value} {s s' t : Store π} :
      Evaluates g tokens ss' s f' vs' s' → Evaluates g tokens ss s' f vs t →
      Evaluates g tokens ss s f vs t

/-- Only abandoned trees are evaluated from one store to the other. -/
def Abandons (g : Grammar π τ) (tokens : List τ) (s t : Store π) : Prop :=
  g.Evaluates tokens [] s .nil [] t

variable {g : Grammar π τ} {tokens : List τ} {ss : List Symbol} {f : Forest τ}
  {vs : List Value} {s s' t : Store π}

theorem Evaluates.of_isEpsilon {r : Rule π} (h : r.isEpsilon = true) (s : Store π) :
    g.Evaluates tokens r.symbols s (.empty .nil) [.null] s := by
  rw [symbols_of_isEpsilon h]
  exact .empty .nil

theorem Abandons.refl : g.Abandons tokens s s := .nil

theorem Evaluates.abandons (h : g.Evaluates tokens ss s f vs t) : g.Abandons tokens s t :=
  .abandon h .nil

theorem Abandons.trans (h : g.Abandons tokens s s') (h' : g.Abandons tokens s' t) :
    g.Abandons tokens s t := .abandon h h'

end Grammar

end ActionGrammar
