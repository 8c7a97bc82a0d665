import ActionGrammar.Parse.Trace

/-! # Events as nested calls

The events of a parse open and close calls: a nonterminal is expanded from enter
to exit, and a rule is attempted until it is reduced or the parse goes back from
it. A replay of the events keeps track of the open calls and forgets the attempts
that the parse went back from.
-/

namespace ActionGrammar

inductive Call where
  | expansion (nt : NonTerminal) (position : Nat)
  | attempt (nt : NonTerminal) (rule position : Nat)
  deriving DecidableEq

def Call.isExpansion : Call → Bool
  | expansion .. => true
  | attempt .. => false

/-- A replay of events, up to some place. -/
structure Replay where
  /-- The events since the innermost open call, without those of attempts that are forgotten. -/
  kept : List Event
  /-- The open calls, the innermost first, each with the events kept before it. -/
  calls : List (Call × List Event)

namespace Replay

def empty : Replay := ⟨[], []⟩

def keep (p : Replay) (es : List Event) : Replay := { p with kept := p.kept ++ es }

def enter (p : Replay) (c : Call) (e : Event) : Replay := ⟨[e], (c, p.kept) :: p.calls⟩

/-- Where no rules are tried, symbols are matched. -/
def stepSymbol (p : Replay) : Event → Option Replay
  | .enter nt i => some (p.enter (.expansion nt i) (.enter nt i))
  | .shift id i => some (p.keep [.shift id i])
  | .mismatch id i => some (p.keep [.mismatch id i])
  | _ => none

/-- In an expansion, rules are attempted from its position. A rule may be reduced without an
attempt. The expansion ends behind its position, or there if there is no match. -/
def stepExpansion (p : Replay) (nt : NonTerminal) (i : Nat) (before : List Event)
    (calls : List (Call × List Event)) : Event → Option Replay
  | .attempt nt' k j =>
    if nt' = nt ∧ j = i then some (p.enter (.attempt nt k i) (.attempt nt k i)) else none
  | .reduce nt' k v => if nt' = nt then some (p.keep [.reduce nt k v]) else none
  | .exit nt' m j =>
    if nt' = nt ∧ i ≤ j ∧ (m = false → j = i) then
      some ⟨before ++ (p.kept ++ [.exit nt m j]), calls⟩
    else none
  | _ => none

def stepAttempt (p : Replay) (nt : NonTerminal) (k i : Nat) (before : List Event)
    (calls : List (Call × List Event)) : Event → Option Replay
  | .reduce nt' k' v =>
    if nt' = nt ∧ k' = k then some ⟨before ++ (p.kept ++ [.reduce nt k v]), calls⟩ else none
  | .backtrack nt' k' j => if nt' = nt ∧ k' = k ∧ j = i then some ⟨before, calls⟩ else none
  | e => p.stepSymbol e

/-- Goes on by one event, unless it opens or closes a call in the wrong place. -/
def step (p : Replay) (e : Event) : Option Replay :=
  match p.calls with
  | [] => p.stepSymbol e
  | (.expansion nt i, before) :: calls => p.stepExpansion nt i before calls e
  | (.attempt nt k i, before) :: calls => p.stepAttempt nt k i before calls e

def run (p : Replay) (es : List Event) : Option Replay := es.foldlM step p

variable {p p' : Replay} {e : Event} {es es' : List Event}

@[simp] theorem run_nil : p.run [] = some p := rfl

@[simp] theorem run_cons : p.run (e :: es) = (p.step e).bind fun q => q.run es := by
  rw [run, List.foldlM_cons]
  rfl

@[simp] theorem run_append : p.run (es ++ es') = (p.run es).bind fun q => q.run es' := by
  rw [run, List.foldlM_append]
  rfl

@[simp] theorem keep_nil : p.keep [] = p := by simp [keep]

@[simp] theorem keep_keep : (p.keep es).keep es' = p.keep (es ++ es') := by simp [keep]

/-- Symbols may be matched, as no expansion waits for its rules. -/
def IsInRule (p : Replay) : Prop :=
  ∀ c ∈ p.calls.head?, ∃ nt k i, c.1 = .attempt nt k i

def IsInExpansion (p : Replay) (nt : NonTerminal) (i : Nat) : Prop :=
  ∃ before calls, p.calls = (.expansion nt i, before) :: calls

theorem IsInRule.keep (h : p.IsInRule) (es : List Event) : (p.keep es).IsInRule := h

theorem IsInExpansion.keep {nt : NonTerminal} {i : Nat} (h : p.IsInExpansion nt i)
    (es : List Event) : (p.keep es).IsInExpansion nt i := h

theorem isInExpansion_enter (p : Replay) (nt : NonTerminal) (i : Nat) (e : Event) :
    (p.enter (.expansion nt i) e).IsInExpansion nt i := ⟨_, _, rfl⟩

theorem isInRule_enter (p : Replay) (nt : NonTerminal) (k i : Nat) (e : Event) :
    (p.enter (.attempt nt k i) e).IsInRule := by
  rintro _ ⟨⟩
  exact ⟨nt, k, i, rfl⟩

theorem isInRule_empty : empty.IsInRule := nofun

theorem IsInRule.step (h : p.IsInRule) {p' : Replay} (he : p.stepSymbol e = some p') :
    p.step e = some p' := by
  rw [Replay.step]
  split
  · exact he
  · rename_i hcalls
    obtain ⟨_, _, _, hc⟩ := h _ (by rw [hcalls]; rfl)
    cases hc
  · cases e <;> first | exact he | cases he

theorem IsInRule.enter (h : p.IsInRule) (nt : NonTerminal) (i : Nat) :
    p.step (.enter nt i) = some (p.enter (.expansion nt i) (.enter nt i)) := h.step rfl

theorem IsInRule.shift (h : p.IsInRule) (id : Terminal.Id) (i : Nat) :
    p.step (.shift id i) = some (p.keep [.shift id i]) := h.step rfl

theorem IsInRule.mismatch (h : p.IsInRule) (id : Terminal.Id) (i : Nat) :
    p.step (.mismatch id i) = some (p.keep [.mismatch id i]) := h.step rfl

theorem IsInExpansion.attempt {nt : NonTerminal} {i : Nat} (h : p.IsInExpansion nt i) (k : Nat) :
    p.step (.attempt nt k i) = some (p.enter (.attempt nt k i) (.attempt nt k i)) := by
  obtain ⟨before, calls, hcalls⟩ := h
  simp [step, hcalls, stepExpansion]

theorem IsInExpansion.reduce {nt : NonTerminal} {i : Nat} (h : p.IsInExpansion nt i) (k : Nat)
    (v : Value) : p.step (.reduce nt k v) = some (p.keep [.reduce nt k v]) := by
  obtain ⟨before, calls, hcalls⟩ := h
  simp [step, hcalls, stepExpansion]

theorem step_exit {nt : NonTerminal} {i j : Nat} {m : Bool} (hle : i ≤ j)
    (hm : m = false → j = i) :
    ((p.enter (.expansion nt i) e).keep es).step (.exit nt m j) =
      some (p.keep (e :: (es ++ [.exit nt m j]))) := by
  simpa [step, enter, keep, stepExpansion, hle] using hm

theorem eq_of_step_exit {nt : NonTerminal} {i j : Nat} {m : Bool}
    (h : ((p.enter (.expansion nt i) e).keep es).step (.exit nt m j) = some p') :
    p' = p.keep (e :: (es ++ [.exit nt m j])) := by
  simp only [step, enter, keep, stepExpansion, Option.ite_none_right_eq_some,
    Option.some.injEq] at h
  simp [← h.2, keep]

theorem step_reduce {nt : NonTerminal} {k i : Nat} {v : Value} :
    ((p.enter (.attempt nt k i) e).keep es).step (.reduce nt k v) =
      some (p.keep (e :: (es ++ [.reduce nt k v]))) := by
  simp [step, enter, keep, stepAttempt]

theorem step_backtrack {nt : NonTerminal} {k i : Nat} :
    ((p.enter (.attempt nt k i) e).keep es).step (.backtrack nt k i) = some p := by
  simp [step, enter, keep, stepAttempt]

/-! ### The depth of calls -/

def depth (p : Replay) : Nat := p.calls.countP (·.1.isExpansion)

theorem depth_step (h : p.step e = some p') :
    match e with
    | .enter .. => p'.depth = p.depth + 1
    | .exit .. => p.depth = p'.depth + 1
    | _ => p'.depth = p.depth := by
  obtain ⟨kept, _ | ⟨⟨_ | _, before⟩, calls⟩⟩ := p <;> cases e <;>
    simp only [step, stepExpansion, stepAttempt, stepSymbol, enter, keep, reduceCtorEq,
      Option.ite_none_right_eq_some, Option.some.injEq] at h <;>
    first
    | (subst h; simp [depth, Call.isExpansion])
    | (obtain ⟨-, rfl⟩ := h; simp [depth, Call.isExpansion])

end Replay

namespace Trace.Printer

open Replay

variable {π τ : Type} (t : Printer π τ) {p p' : Replay} {es : List Event} {base : Nat} {page : Page}

theorem depth_step (page : Page) (e : Event) :
    (t.step page e).depth =
      match e with
      | .enter .. => page.depth + 1
      | .exit .. => page.depth - 1
      | _ => page.depth := by
  cases e <;> simp only [step, Page.push]
  all_goals split <;> rfl

/-- A trace is indented by the open expansions. -/
theorem depth_foldl (h : p.run es = some p') (hpage : page.depth = base + p.depth) :
    (es.foldl t.step page).depth = base + p'.depth := by
  induction es generalizing p page with
  | nil =>
    obtain rfl := Option.some.inj h
    exact hpage
  | cons e es ih =>
    rw [run_cons] at h
    obtain ⟨q, hq, h⟩ := Option.bind_eq_some_iff.mp h
    refine ih h ?_
    have hpage' := t.depth_step page e
    have hq := Replay.depth_step hq
    cases e <;> simp only at hpage' hq <;> omega

theorem depth_pos_of_exit {before after : List Event} {nt : NonTerminal} {m : Bool} {j : Nat}
    (h : p.run (before ++ .exit nt m j :: after) = some p') (hpage : page.depth = base + p.depth) :
    1 ≤ (before.foldl t.step page).depth := by
  rw [run_append] at h
  obtain ⟨q, hq, h⟩ := Option.bind_eq_some_iff.mp h
  rw [run_cons] at h
  obtain ⟨q', hq', -⟩ := Option.bind_eq_some_iff.mp h
  have hdepth : q.depth = q'.depth + 1 := Replay.depth_step hq'
  rw [t.depth_foldl hq hpage]
  omega

end Trace.Printer

end ActionGrammar
