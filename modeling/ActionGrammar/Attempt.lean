/-! # Attempts

A computation over a state that may fail. The state survives a failure, with
all changes made before it. Running an attempt from a state yields its outcome
and the state after it.
-/

namespace ActionGrammar

abbrev Attempt (σ ε α : Type) := ExceptT ε (StateM σ) α

namespace Attempt

variable {σ ε ε' α β : Type}

def runFrom (x : Attempt σ ε α) (s : σ) : Except ε α × σ := StateT.run (ExceptT.run x) s

def ofExcept (r : Except ε α) : Attempt σ ε α := ExceptT.mk (pure r)

def ofState (f : StateM σ α) : Attempt σ ε α := ExceptT.lift f

def ofOutcome (f : StateM σ (Except ε α)) : Attempt σ ε α := ExceptT.mk f

def mapError (f : ε → ε') (x : Attempt σ ε α) : Attempt σ ε' α := ExceptT.adapt f x

@[simp] theorem runFrom_pure (x : α) (s : σ) :
    (pure x : Attempt σ ε α).runFrom s = (.ok x, s) := rfl

@[simp] theorem runFrom_throw (e : ε) (s : σ) :
    (throw e : Attempt σ ε α).runFrom s = (.error e, s) := rfl

@[simp] theorem runFrom_get (s : σ) : (get : Attempt σ ε σ).runFrom s = (.ok s, s) := rfl

@[simp] theorem runFrom_set (s t : σ) :
    (set t : Attempt σ ε PUnit).runFrom s = (.ok ⟨⟩, t) := rfl

@[simp] theorem runFrom_modify (f : σ → σ) (s : σ) :
    (modify f : Attempt σ ε PUnit).runFrom s = (.ok ⟨⟩, f s) := rfl

@[simp] theorem runFrom_ofExcept (r : Except ε α) (s : σ) :
    (ofExcept r : Attempt σ ε α).runFrom s = (r, s) := rfl

@[simp] theorem runFrom_ofState (f : StateM σ α) (s : σ) :
    (ofState f : Attempt σ ε α).runFrom s = (.ok (f s).1, (f s).2) := rfl

@[simp] theorem runFrom_ofOutcome (f : StateM σ (Except ε α)) (s : σ) :
    (ofOutcome f : Attempt σ ε α).runFrom s = f s := rfl

@[simp] theorem runFrom_mapError (f : ε → ε') (x : Attempt σ ε α) (s : σ) :
    (x.mapError f).runFrom s = ((x.runFrom s).1.mapError f, (x.runFrom s).2) := rfl

theorem runFrom_bind (x : Attempt σ ε α) (f : α → Attempt σ ε β) (s : σ) :
    (x >>= f).runFrom s =
      match x.runFrom s with
      | (.ok a, t) => (f a).runFrom t
      | (.error e, t) => (.error e, t) := by
  change StateT.run (ExceptT.bindCont f (x s).1) (x s).2 = _
  simp only [runFrom, ExceptT.run, StateT.run]
  cases h : x s with | mk r t => cases r <;> rfl

theorem runFrom_bind_eq_ok_iff {x : Attempt σ ε α} {f : α → Attempt σ ε β} {s t : σ} {b : β} :
    (x >>= f).runFrom s = (.ok b, t) ↔
      ∃ a u, x.runFrom s = (.ok a, u) ∧ (f a).runFrom u = (.ok b, t) := by
  rw [runFrom_bind]
  constructor
  · rcases h : x.runFrom s with ⟨r | a, u⟩ <;> intro h'
    · simp at h'
    · exact ⟨a, u, rfl, h'⟩
  · rintro ⟨a, u, h, h'⟩
    rw [h]
    exact h'

end Attempt

end ActionGrammar
