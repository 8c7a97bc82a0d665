import ActionGrammar.Expr.Eval

/-! # The calls of an evaluation

An expression is evaluated in the same way however the bodies of its callees are
run. They may be called as they are, or each call may be noted before. What is
noted changes neither the value nor the store.
-/

namespace ActionGrammar

variable {π σ ε ε' α β : Type}

/-- A call of a body, and the expression that makes it. -/
structure BodyCall (π : Type) where
  caller : Resolved π
  overload : Overload π
  receiver : Option Value
  args : Args

namespace BodyCall

def run (c : BodyCall π) : Effect π InvokeError Value := c.overload.call c.receiver c.args

def note (c : BodyCall π) : Attempt (Store π × List (BodyCall π)) InvokeError Value :=
  .ofOutcome fun (s, calls) => ((c.run.runFrom s).1, (c.run.runFrom s).2, calls ++ [c])

end BodyCall

namespace MethodGroup

def invokeBy (make : BodyCall π → Attempt σ InvokeError Value) (caller : Resolved π)
    (g : MethodGroup π) (receiver : Option Value) (args : Args) : Attempt σ CallError Value :=
  match g.select receiver.isNone (args.map ValueKind.ofValue) with
  | .ok o => (make ⟨caller, o, receiver, args⟩).mapError (.invoke g.name)
  | .error e => throw (.resolve e)

end MethodGroup

namespace Resolved

mutual

/-- Evaluation where bodies are called by `make`. -/
def evalBy (make : BodyCall π → Attempt σ InvokeError Value) (results : List Value) :
    Resolved π → Attempt σ EvalError Value
  | .constant l => pure l.toValue
  | .result i =>
    match results[i]? with
    | some v => pure v
    | none => throw (.resultOutOfRange i results.length)
  | .construct g args => do
    let vs ← evalAllBy make results args
    (g.invokeBy make (.construct g args) none vs).mapError .call
  | .static g args => do
    let vs ← evalAllBy make results args
    (g.invokeBy make (.static g args) none vs).mapError .call
  | .invoke g receiver args => do
    let this ← evalBy make results receiver
    if g.receiver.any (·.admits this) then
      let vs ← evalAllBy make results args
      (g.invokeBy make (.invoke g receiver args) (some this) vs).mapError .call
    else throw (.receiverType g.name g.receiver this.typeName)

def evalAllBy (make : BodyCall π → Attempt σ InvokeError Value) (results : List Value) :
    List (Resolved π) → Attempt σ EvalError (List Value)
  | [] => pure []
  | e :: es => do
    let v ← evalBy make results e
    return v :: (← evalAllBy make results es)

end

mutual

theorem evalBy_run (results : List Value) :
    ∀ e : Resolved π, evalBy BodyCall.run results e = eval results e
  | .constant _ => by rw [evalBy, eval]
  | .result i => by
    unfold evalBy eval
    cases results[i]? <;> rfl
  | .construct g args => by
    rw [evalBy, eval, evalAllBy_run results args]
    rfl
  | .static g args => by
    rw [evalBy, eval, evalAllBy_run results args]
    rfl
  | .invoke g receiver args => by
    rw [evalBy, eval, evalBy_run results receiver, evalAllBy_run results args]
    rfl

theorem evalAllBy_run (results : List Value) :
    ∀ es : List (Resolved π), evalAllBy BodyCall.run results es = evalAll results es
  | [] => by rw [evalAllBy, evalAll]
  | e :: es => by rw [evalAllBy, evalAll, evalBy_run results e, evalAllBy_run results es]

end

end Resolved

/-- The first attempt does what the second one does. It notes calls in `P`, and it fails for a
reason in `R`. -/
def Notes (P : BodyCall π → Prop) (R : ε → Prop) (x : Attempt (Store π × List (BodyCall π)) ε α)
    (y : Effect π ε α) : Prop :=
  ∀ s calls, ∃ noted,
    x.runFrom (s, calls) = ((y.runFrom s).1, (y.runFrom s).2, calls ++ noted) ∧
    (∀ c ∈ noted, P c) ∧ ∀ e, (y.runFrom s).1 = .error e → R e

namespace Notes

variable {P : BodyCall π → Prop} {R : ε → Prop} {x : Attempt (Store π × List (BodyCall π)) ε α}
  {y : Effect π ε α}

theorem pure (a : α) : Notes P R (pure a) (pure a) :=
  fun s calls => ⟨[], by simp, nofun, nofun⟩

theorem throw {e : ε} (h : R e) : Notes (α := α) P R (throw e) (throw e) := by
  intro s calls
  refine ⟨[], by simp, nofun, ?_⟩
  rintro _ ⟨⟩
  exact h

theorem bind {f : α → Attempt (Store π × List (BodyCall π)) ε β} {g : α → Effect π ε β}
    (h : Notes P R x y) (hf : ∀ a, Notes P R (f a) (g a)) : Notes P R (x >>= f) (y >>= g) := by
  intro s calls
  obtain ⟨noted, hx, hP, hR⟩ := h s calls
  rw [Attempt.runFrom_bind, Attempt.runFrom_bind, hx]
  rcases hy : y.runFrom s with ⟨e | a, t⟩
  · refine ⟨noted, rfl, hP, ?_⟩
    rintro _ ⟨⟩
    exact hR e (by rw [hy])
  · obtain ⟨noted', hf, hP', hR'⟩ := hf a t (calls ++ noted)
    refine ⟨noted ++ noted', ?_, List.forall_mem_append.mpr ⟨hP, hP'⟩, hR'⟩
    rw [← List.append_assoc]
    exact hf

theorem mapError {f : ε → ε'} {S : ε' → Prop} (h : Notes P R x y) (hS : ∀ e, R e → S (f e)) :
    Notes P S (x.mapError f) (y.mapError f) := by
  intro s calls
  obtain ⟨noted, hx, hP, hR⟩ := h s calls
  rw [Attempt.runFrom_mapError, Attempt.runFrom_mapError, hx]
  refine ⟨noted, rfl, hP, fun e he => ?_⟩
  rcases hy : (y.runFrom s).1 with e' | a
  · rw [hy] at he
    cases he
    exact hS e' (hR e' hy)
  · rw [hy] at he
    cases he

theorem note {P : BodyCall π → Prop} {R : InvokeError → Prop} {c : BodyCall π} (hP : P c)
    (hR : ∀ e, R e) : Notes P R c.note c.run :=
  fun _ _ => ⟨[c], rfl, List.forall_mem_singleton.mpr hP, fun e _ => hR e⟩

end Notes

end ActionGrammar
