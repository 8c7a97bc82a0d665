import ActionGrammar.Attempt

/-! # What attempts ensure

An attempt ensures a postcondition for its success and another one for its
failure. What a composed attempt ensures follows from what its parts do.
-/

namespace ActionGrammar.Attempt

variable {σ ε α β : Type}

/-- From `s`, the attempt succeeds with a result and a state in `Q`, or fails with an error in
`R`. -/
def Ensures (x : Attempt σ ε α) (s : σ) (Q : α → σ → Prop) (R : ε → Prop) : Prop :=
  match x.runFrom s with
  | (.ok a, t) => Q a t
  | (.error e, _) => R e

variable {s t : σ} {Q : α → σ → Prop} {R : ε → Prop}

theorem Ensures.of_ok {x : Attempt σ ε α} {a : α} (h : x.Ensures s Q R)
    (hx : x.runFrom s = (.ok a, t)) : Q a t := by
  rwa [Ensures, hx] at h

theorem Ensures.of_error {x : Attempt σ ε α} {e : ε} (h : x.Ensures s Q R)
    (hx : x.runFrom s = (.error e, t)) : R e := by
  rwa [Ensures, hx] at h

theorem Ensures.mono {x : Attempt σ ε α} {Q' : α → σ → Prop} {R' : ε → Prop}
    (h : x.Ensures s Q R) (hQ : ∀ a t, Q a t → Q' a t) (hR : ∀ e, R e → R' e) :
    x.Ensures s Q' R' := by
  unfold Ensures at h ⊢
  split <;> rename_i heq <;> rw [heq] at h
  · exact hQ _ _ h
  · exact hR _ h

theorem Ensures.of_forall {x : Attempt σ ε α} (hQ : ∀ a t, Q a t) (hR : ∀ e, R e) :
    x.Ensures s Q R := by
  unfold Ensures
  split
  · exact hQ _ _
  · exact hR _

theorem Ensures.and {x : Attempt σ ε α} {Q' : α → σ → Prop} {R' : ε → Prop}
    (h : x.Ensures s Q R) (h' : x.Ensures s Q' R') :
    x.Ensures s (fun a t => Q a t ∧ Q' a t) (fun e => R e ∧ R' e) := by
  unfold Ensures at h h' ⊢
  split <;> rename_i heq <;> rw [heq] at h h'
  · exact ⟨h, h'⟩
  · exact ⟨h, h'⟩

@[simp] theorem ensures_bind {x : Attempt σ ε α} {f : α → Attempt σ ε β} {Q : β → σ → Prop} :
    (x >>= f).Ensures s Q R ↔ x.Ensures s (fun a t => (f a).Ensures t Q R) R := by
  unfold Ensures
  rw [runFrom_bind]
  rcases x.runFrom s with ⟨_ | a, t⟩ <;> rfl

@[simp] theorem ensures_pure {a : α} : (pure a : Attempt σ ε α).Ensures s Q R ↔ Q a s := .rfl

@[simp] theorem ensures_throw {e : ε} : (throw e : Attempt σ ε α).Ensures s Q R ↔ R e := .rfl

@[simp] theorem ensures_get {Q : σ → σ → Prop} :
    (get : Attempt σ ε σ).Ensures s Q R ↔ Q s s := .rfl

@[simp] theorem ensures_set {Q : PUnit → σ → Prop} :
    (set t : Attempt σ ε PUnit).Ensures s Q R ↔ Q ⟨⟩ t := .rfl

@[simp] theorem ensures_modify {f : σ → σ} {Q : PUnit → σ → Prop} :
    (modify f : Attempt σ ε PUnit).Ensures s Q R ↔ Q ⟨⟩ (f s) := .rfl

theorem ensures_ofExcept_ok {r : Except ε α} {a : α} (h : r = .ok a) (hQ : Q a s) :
    (ofExcept r : Attempt σ ε α).Ensures s Q R := by
  rw [h]
  exact hQ

@[simp] theorem ensures_mapError {ε' : Type} {f : ε → ε'} {x : Attempt σ ε α} {R : ε' → Prop} :
    (x.mapError f).Ensures s Q R ↔ x.Ensures s Q fun e => R (f e) := by
  unfold Ensures
  rw [runFrom_mapError]
  rcases x.runFrom s with ⟨_ | a, t⟩ <;> rfl

theorem ensures_of_runFrom {x : Attempt σ ε α} {a : α} (hx : x.runFrom s = (.ok a, t))
    (hQ : Q a t) : x.Ensures s Q R := by
  rwa [Ensures, hx]

theorem Ensures.exists_ok {x : Attempt σ ε α} (h : x.Ensures s Q fun _ => False) :
    ∃ a t, x.runFrom s = (.ok a, t) ∧ Q a t := by
  unfold Ensures at h
  split at h
  · exact ⟨_, _, by assumption, h⟩
  · exact h.elim

/-- From `s`, the attempt succeeds with a result and a state in `Q`, or fails with an error and a
state in `R`. -/
def Ends (x : Attempt σ ε α) (s : σ) (Q : α → σ → Prop) (R : ε → σ → Prop) : Prop :=
  match x.runFrom s with
  | (.ok a, t) => Q a t
  | (.error e, t) => R e t

section

variable {R : ε → σ → Prop}

theorem Ends.of_ok {x : Attempt σ ε α} {a : α} (h : x.Ends s Q R)
    (hx : x.runFrom s = (.ok a, t)) : Q a t := by
  rwa [Ends, hx] at h

theorem Ends.of_error {x : Attempt σ ε α} {e : ε} (h : x.Ends s Q R)
    (hx : x.runFrom s = (.error e, t)) : R e t := by
  rwa [Ends, hx] at h

theorem Ends.mono {x : Attempt σ ε α} {Q' : α → σ → Prop} {R' : ε → σ → Prop}
    (h : x.Ends s Q R) (hQ : ∀ a t, Q a t → Q' a t) (hR : ∀ e t, R e t → R' e t) :
    x.Ends s Q' R' := by
  unfold Ends at h ⊢
  split <;> rename_i heq <;> rw [heq] at h
  · exact hQ _ _ h
  · exact hR _ _ h

theorem Ensures.ends {x : Attempt σ ε α} {R : ε → Prop} (h : x.Ensures s Q R) :
    x.Ends s Q fun e _ => R e := by
  unfold Ensures at h
  unfold Ends
  split at h <;> exact h

theorem Ends.runFrom_snd {x : Attempt σ ε α} {P : σ → Prop}
    (h : x.Ends s (fun _ t => P t) fun _ t => P t) : P (x.runFrom s).2 := by
  unfold Ends at h
  split at h <;> rename_i heq <;> rwa [heq]

@[simp] theorem ends_throw {e : ε} {Q : α → σ → Prop} :
    (throw e : Attempt σ ε α).Ends s Q R ↔ R e s := .rfl

@[simp] theorem ends_get {Q : σ → σ → Prop} : (get : Attempt σ ε σ).Ends s Q R ↔ Q s s := .rfl

@[simp] theorem ends_set {Q : PUnit → σ → Prop} :
    (set t : Attempt σ ε PUnit).Ends s Q R ↔ Q ⟨⟩ t := .rfl

@[simp] theorem ends_bind {x : Attempt σ ε α} {f : α → Attempt σ ε β} {Q : β → σ → Prop} :
    (x >>= f).Ends s Q R ↔ x.Ends s (fun a t => (f a).Ends t Q R) R := by
  unfold Ends
  rw [runFrom_bind]
  rcases x.runFrom s with ⟨_ | a, t⟩ <;> rfl

end

end ActionGrammar.Attempt
