import ActionGrammar.Proofs.Grammar.Handles

/-! # Histories of registrations

Every registration is answered, by the handle of a symbol or by a refusal. One
that is refused leaves no trace: without it, the others are answered as before,
and they leave the same builder. So a builder is made up of what was accepted.
-/

namespace ActionGrammar

variable {τ : Type} [Token τ]

namespace Registration

/-- The registration with its answer, which is a handle if a symbol is registered by itself. -/
def answer : Registration τ → Staging τ (Option Symbol)
  | .terminal name token => do
    let id ← Builder.registerTerminal name token
    return some (.terminal id)
  | .nonTerminal name => do
    let nt ← Builder.registerNonTerminal name
    return some (.nonTerminal nt)
  | .rule name symbols action => do
    Builder.registerRule name symbols action
    return none
  | .start name => do
    Builder.setStart name
    return none

theorem runFrom_stage (x : Registration τ) (b : Builder τ) :
    x.stage.runFrom b = ((x.answer.runFrom b).1.map fun _ => (), (x.answer.runFrom b).2) := by
  cases x with
  | terminal name token =>
    rw [stage, answer, Attempt.runFrom_bind, Attempt.runFrom_bind]
    rcases (Builder.registerTerminal name token).runFrom b with ⟨_ | _, _⟩ <;> rfl
  | nonTerminal name =>
    rw [stage, answer, Attempt.runFrom_bind, Attempt.runFrom_bind]
    rcases (Builder.registerNonTerminal name).runFrom b with ⟨_ | _, _⟩ <;> rfl
  | rule name symbols action =>
    rw [stage, answer, Attempt.runFrom_bind]
    rcases (Builder.registerRule name symbols action).runFrom b with ⟨_ | _, _⟩ <;> rfl
  | start name =>
    rw [stage, answer, Attempt.runFrom_bind]
    rcases (Builder.setStart name).runFrom b with ⟨_ | _, _⟩ <;> rfl

end Registration

namespace Builder

variable {b : Builder τ} {x : Registration τ} {xs ys : List (Registration τ)}

theorem answer_of_accepts (h : b.Accepts x) : ∃ s, x.answer.runFrom b = (.ok s, b.add x) := by
  have hstage := x.runFrom_stage b
  rw [stage_of_accepts h] at hstage
  rcases hrun : x.answer.runFrom b with ⟨e | s, b'⟩
  · rw [hrun] at hstage
    cases hstage
  · rw [hrun] at hstage
    cases hstage
    exact ⟨s, rfl⟩

theorem answer_of_not_accepts (h : ¬ b.Accepts x) : ∃ e, x.answer.runFrom b = (.error e, b) := by
  obtain ⟨e, hrefused⟩ := stage_of_not_accepts h
  have hstage := x.runFrom_stage b
  rw [hrefused] at hstage
  rcases hrun : x.answer.runFrom b with ⟨e' | s, b'⟩
  · rw [hrun] at hstage
    cases hstage
    exact ⟨e, rfl⟩
  · rw [hrun] at hstage
    cases hstage

def history (b : Builder τ) : List (Registration τ) →
    List (Registration τ × Except GrammarError (Option Symbol))
  | [] => []
  | x :: xs => (x, (x.answer.runFrom b).1) :: history (x.answer.runFrom b).2 xs

def accepted (b : Builder τ) (xs : List (Registration τ)) : List (Registration τ) :=
  ((b.history xs).filter (·.2.isOk)).map Prod.fst

theorem history_cons_of_accepts (h : b.Accepts x) (xs : List (Registration τ)) :
    ∃ s, b.history (x :: xs) = (x, .ok s) :: (b.add x).history xs := by
  obtain ⟨s, hs⟩ := answer_of_accepts h
  exact ⟨s, by rw [history, hs]⟩

theorem history_cons_of_not_accepts (h : ¬ b.Accepts x) (xs : List (Registration τ)) :
    ∃ e, b.history (x :: xs) = (x, .error e) :: b.history xs := by
  obtain ⟨e, he⟩ := answer_of_not_accepts h
  exact ⟨e, by rw [history, he]⟩

theorem accepted_cons_of_accepts (h : b.Accepts x) :
    b.accepted (x :: xs) = x :: (b.add x).accepted xs := by
  obtain ⟨s, hs⟩ := history_cons_of_accepts h xs
  rw [accepted, hs]
  rfl

theorem accepted_cons_of_not_accepts (h : ¬ b.Accepts x) :
    b.accepted (x :: xs) = b.accepted xs := by
  obtain ⟨e, he⟩ := history_cons_of_not_accepts h xs
  rw [accepted, he]
  rfl

theorem history_accepted (b : Builder τ) (xs : List (Registration τ)) :
    b.history (b.accepted xs) = (b.history xs).filter (·.2.isOk) := by
  induction xs generalizing b with
  | nil => rfl
  | cons x xs ih =>
    by_cases h : b.Accepts x
    · obtain ⟨s, hs⟩ := answer_of_accepts h
      rw [accepted_cons_of_accepts h, history, history, hs]
      exact congrArg _ (ih _)
    · obtain ⟨e, he⟩ := history_cons_of_not_accepts h xs
      rw [accepted_cons_of_not_accepts h, he]
      exact ih b

theorem accepted_accepted (b : Builder τ) (xs : List (Registration τ)) :
    b.accepted (b.accepted xs) = b.accepted xs := by
  rw [accepted, history_accepted, List.filter_filter]
  simp only [Bool.and_self, accepted]

theorem accepted_mono (h : ys <+: xs) : b.accepted ys <+: b.accepted xs := by
  obtain ⟨zs, rfl⟩ := h
  induction ys generalizing b with
  | nil => exact List.nil_prefix
  | cons y ys ih =>
    rw [List.cons_append]
    by_cases h : b.Accepts y
    · rw [accepted_cons_of_accepts h, accepted_cons_of_accepts h]
      exact List.cons_prefix_cons.mpr ⟨rfl, ih⟩
    · rw [accepted_cons_of_not_accepts h, accepted_cons_of_not_accepts h]
      exact ih

theorem foldl_accepted (b : Builder τ) (xs : List (Registration τ)) :
    xs.foldl (fun b x => (x.stage.runFrom b).2) b = (b.accepted xs).foldl add b := by
  induction xs generalizing b with
  | nil => rfl
  | cons x xs ih =>
    rw [List.foldl_cons, ih]
    by_cases h : b.Accepts x
    · rw [stage_of_accepts h, accepted_cons_of_accepts h]
      rfl
    · obtain ⟨e, he⟩ := stage_of_not_accepts h
      rw [he, accepted_cons_of_not_accepts h]

omit [Token τ] in
/-- The builder that registrations make up which are all accepted. -/
def ofAccepted (xs : List (Registration τ)) : Builder τ := xs.foldl add empty

theorem after_eq_ofAccepted (xs : List (Registration τ)) :
    after xs = ofAccepted (empty.accepted xs) := foldl_accepted empty xs

theorem after_accepted (xs : List (Registration τ)) :
    after (empty.accepted xs) = after xs := by
  rw [after_eq_ofAccepted, accepted_accepted, ← after_eq_ofAccepted]

/-- A registration that is refused leaves no trace. Without those that are, all others are answered
as before, the same names are taken at every moment, and the same is built in the end. -/
theorem after_forgets_refused {π : Type} (xs : List (Registration τ)) :
    empty.history (empty.accepted xs) = (empty.history xs).filter (·.2.isOk) ∧
    (∀ ys, ys <+: xs → empty.accepted ys <+: empty.accepted xs ∧ ∀ name,
      (after (empty.accepted ys)).hasTerminal name = (after ys).hasTerminal name ∧
      (after (empty.accepted ys)).hasNonTerminal name = (after ys).hasNonTerminal name) ∧
    ∀ r : Registry π, (after (empty.accepted xs)).build r = (after xs).build r := by
  refine ⟨history_accepted empty xs, fun ys h => ⟨accepted_mono h, fun name => ?_⟩, fun r => ?_⟩
  · rw [after_accepted]
    exact ⟨rfl, rfl⟩
  · rw [after_accepted]

/-- Two terminals are refused: one has the name of a nonterminal, and one a token that is taken. -/
theorem after_forgets_refused_int :
    empty.history [intRule, .terminal "int" (.reference .int), .terminal "dot" (.reference .dot)] =
      [(intRule, .ok none), (.terminal "int" (.reference .int), .ok (some (.terminal ⟨1⟩))),
        (.terminal "dot" (.reference .dot), .ok (some (.terminal ⟨2⟩)))] ∧
    [intRule, .terminal "int" (.reference .int), .terminal "Start" (.reference .dot)] <+:
      intRule :: .terminal "int" (.reference .int) :: afterInt ∧
    (after [intRule, .terminal "int" (.reference .int),
      .terminal "Start" (.reference .dot)]).hasTerminal "Start" = false := by
  obtain ⟨hhistory, hnames, -⟩ := after_forgets_refused (π := Unit)
    (intRule :: .terminal "int" (.reference .int) :: afterInt)
  refine ⟨hhistory.trans rfl, ⟨_, rfl⟩, ?_⟩
  rw [← ((hnames _ ⟨_, rfl⟩).2 "Start").1]
  rfl

end Builder

end ActionGrammar
