import ActionGrammar.Parse.Engine
import ActionGrammar.Proofs.Attempt

/-! # A parse that notes its reductions

A parse may note each reduction with the results that its action is evaluated on,
whether the rule is kept or abandoned and whether the action fails or not. Taking
notes changes neither the outcome nor the trace, as long as every step does what it
does without them.
-/

namespace ActionGrammar

open Attempt Parsing

variable {π τ α β : Type}

/-- An evaluation of the action of a rule, and what it came to. -/
structure Reduction (π : Type) where
  nt : NonTerminal
  index : Nat
  rule : Rule π
  /-- Where the rule was tried. -/
  start : Nat
  results : List Value
  outcome : Except EvalError Value

def Reduction.event? (ρ : Reduction π) : Option Event :=
  match ρ.outcome with
  | .ok v => some (.reduce ρ.nt ρ.index v)
  | .error _ => none

def Event.isReduce : Event → Bool
  | .reduce _ _ _ => true
  | _ => false

/-- A step of a parse that notes reductions. -/
abbrev Noting (π α : Type) := Attempt (Run π × List (Reduction π)) ParseError α

namespace Noting

def quiet (x : Parsing π α) : Noting π α :=
  .ofOutcome fun (run, notes) => ((x.runFrom run).1, (x.runFrom run).2, notes)

def reduce (nt : NonTerminal) (index : Nat) (rule : Rule π) (start : Nat) (results : List Value) :
    Noting π Value :=
  .ofOutcome fun (run, notes) =>
    let outcome := ((Resolved.evalAction results rule.action).runFrom run.store).1
    let (v, after) := (Parser.reduce nt index rule results).runFrom run
    (v, after, notes ++ [⟨nt, index, rule, start, results, outcome⟩])

variable [Token τ] [TokenValue π τ]

def matchSymbol (p : Parser π τ) (tokens : Array τ)
    (expand : NonTerminal → Noting π (Option Value)) : Symbol → Noting π (Option Value)
  | .terminal id =>
    quiet <|
      if (Symbol.terminal id).isEmptyString then pure (some .null) else p.matchTerminal tokens id
  | .nonTerminal nt => expand nt

def matchSymbols (p : Parser π τ) (tokens : Array τ)
    (expand : NonTerminal → Noting π (Option Value)) :
    List Symbol → Noting π (Option (List Value))
  | [] => return some []
  | s :: ss => do
    match ← matchSymbol p tokens expand s with
    | none => return none
    | some v => return (← matchSymbols p tokens expand ss).map (v :: ·)

def tryRule (p : Parser π τ) (tokens : Array τ)
    (expand : NonTerminal → Noting π (Option Value)) (nt : NonTerminal) (start : Nat)
    (rules : List (Rule π)) (outcome : Parser.Outcome) (index : Nat) (rule : Rule π) :
    Noting π Parser.Outcome := do
  if rule.isEpsilon then return { outcome with epsilon := some index }
  quiet (moveTo start)
  quiet (record (.attempt nt index start))
  match ← matchSymbols p tokens expand rule.symbols with
  | none =>
    quiet (record (.backtrack nt index start))
    return outcome
  | some results =>
    let value ← reduce nt index rule start results
    match outcome.matched with
    | none => return { outcome with matched := some ⟨index, ← quiet cursor, value⟩ }
    | some earlier => do
      let name ← quiet (ofLookup (p.grammar.nonTerminalName nt))
      let first ← quiet (ofLookup ((rules[earlier.rule]?).elim (.ok "") (p.grammar.production nt)))
      let second ← quiet (ofLookup (p.grammar.production nt rule))
      throw (.ambiguous name first second start)

def tryRules (p : Parser π τ) (tokens : Array τ)
    (expand : NonTerminal → Noting π (Option Value)) (nt : NonTerminal) (start : Nat)
    (rules : List (Rule π)) :
    Parser.Outcome → List (Nat × Rule π) → Noting π Parser.Outcome
  | outcome, [] => return outcome
  | outcome, (index, rule) :: rest => do
    let outcome ← tryRule p tokens expand nt start rules outcome index rule
    tryRules p tokens expand nt start rules outcome rest

def conclude (nt : NonTerminal) (start : Nat) (rules : List (Rule π)) (outcome : Parser.Outcome) :
    Noting π (Option Value) := do
  match outcome.matched, outcome.epsilon with
  | some m, _ =>
    quiet (moveTo m.stop)
    return some m.value
  | none, some index =>
    quiet (moveTo start)
    match rules[index]? with
    | some rule => return some (← reduce nt index rule start [])
    | none => return none
  | none, none =>
    quiet (moveTo start)
    return none

def expand (p : Parser π τ) (tokens : Array τ) : (room : Nat) → NonTerminal →
    Noting π (Option Value)
  | 0, _ => do
    quiet (burn p.limits)
    throw (.recursionLimitExceeded p.limits.recursion)
  | room + 1, nt => do
    quiet (burn p.limits)
    let start ← quiet cursor
    quiet (record (.enter nt start))
    let rules ← quiet (ofLookup (p.grammar.rules nt))
    let indexed := (List.range rules.length).zip rules
    let outcome ← tryRules p tokens (expand p tokens room) nt start rules ⟨none, none⟩ indexed
    let result ← conclude nt start rules outcome
    quiet (record (.exit nt result.isSome (← quiet cursor)))
    return result

def parseTokens (p : Parser π τ) (tokens : Array τ) : Noting π Value := do
  match ← expand p tokens p.limits.recursion.toNat p.grammar.start with
  | none => throw (.notGenerated (← quiet get).furthest)
  | some v =>
    let run ← quiet get
    if run.cursor < tokens.size then throw (.trailingTokens run.cursor run.furthest)
    return v

/-- What `Parser.run` comes to, and the reductions from first to last. -/
def run (p : Parser π τ) (tokens : Array τ) (s : Store π) :
    ((Except ParseError Value × List Event) × Store π) × List (Reduction π) :=
  let (result, final, notes) := (parseTokens p tokens).runFrom (⟨0, 0, 0, s, []⟩, [])
  (((result, final.events.reverse), final.store), notes)

end Noting

/-- The reductions of a parse, those of abandoned rules and the one that fails included. -/
def Parser.reductions [Token τ] [TokenValue π τ] (p : Parser π τ) (tokens : Array τ)
    (s : Store π) : List (Reduction π) := (Noting.run p tokens s).2

/-! ### Steps without a reduction -/

def Run.reduced (run : Run π) : List Event := run.events.reverse.filter Event.isReduce

namespace Parsing

/-- The step records no reduction, and it does not fail as an action does. -/
def IsSilent (x : Parsing π α) : Prop :=
  ∀ run, (x.runFrom run).2.reduced = run.reduced ∧ ∀ e, (x.runFrom run).1 ≠ .error (.eval e)

theorem IsSilent.bind {x : Parsing π α} {f : α → Parsing π β} (hx : x.IsSilent)
    (hf : ∀ a, (f a).IsSilent) : (x >>= f).IsSilent := by
  intro run
  have h := hx run
  rw [runFrom_bind]
  rcases hrun : x.runFrom run with ⟨e | a, run'⟩ <;> rw [hrun] at h
  · exact ⟨h.1, fun c hc => h.2 c (congrArg Except.error (Except.error.inj hc))⟩
  · exact ⟨(hf a run').1.trans h.1, (hf a run').2⟩

theorem isSilent_of_events {x : Parsing π α} (hx : ∀ run, (x.runFrom run).2.events = run.events)
    (he : ∀ run e, (x.runFrom run).1 ≠ .error (.eval e)) : x.IsSilent :=
  fun run => ⟨by rw [Run.reduced, hx, Run.reduced], he run⟩

theorem isSilent_pure (a : α) : IsSilent (pure a : Parsing π α) :=
  isSilent_of_events (fun _ => rfl) nofun

theorem isSilent_throw {e : ParseError} (h : ∀ c, e ≠ .eval c) :
    IsSilent (throw e : Parsing π α) :=
  isSilent_of_events (fun _ => rfl) fun _ c hc => h c (Except.error.inj hc)

theorem isSilent_get : IsSilent (get : Parsing π (Run π)) :=
  isSilent_of_events (fun _ => rfl) nofun

theorem isSilent_cursor : IsSilent (cursor : Parsing π Nat) :=
  isSilent_of_events (fun _ => rfl) nofun

theorem isSilent_modify {f : Run π → Run π} (h : ∀ run, (f run).events = run.events) :
    IsSilent (modify f : Parsing π Unit) := isSilent_of_events h nofun

theorem isSilent_moveTo (i : Nat) : IsSilent (moveTo i : Parsing π Unit) :=
  isSilent_modify fun _ => rfl

theorem isSilent_onStore (f : StateM (Store π) α) : IsSilent (onStore f) :=
  isSilent_of_events (fun _ => rfl) nofun

theorem isSilent_ofLookup (r : Except HandleFault α) : IsSilent (ofLookup r : Parsing π α) := by
  cases r with
  | error e => exact isSilent_throw nofun
  | ok a => exact isSilent_pure a

theorem isSilent_burn (l : Limits) : IsSilent (burn l : Parsing π Unit) := by
  intro run
  unfold burn
  simp only [runFrom_bind, runFrom_get]
  split
  · split <;> exact ⟨rfl, nofun⟩
  · exact ⟨rfl, nofun⟩

theorem isSilent_record {e : Event} (h : e.isReduce = false) :
    IsSilent (record e : Parsing π Unit) := by
  intro run
  refine ⟨?_, nofun⟩
  have hevents : ((record e).runFrom run).2.events = e :: run.events := rfl
  simp [Run.reduced, hevents, h]

end Parsing

variable [Token τ] [TokenValue π τ] {p : Parser π τ} {tokens : Array τ}

theorem Parser.matchTerminal_isSilent (id : Terminal.Id) :
    IsSilent (p.matchTerminal tokens id) := by
  refine (isSilent_burn _).bind fun _ => (isSilent_ofLookup _).bind fun terminal => ?_
  refine isSilent_cursor.bind fun here => .bind (isSilent_modify fun run => ?_) fun _ => ?_
  · rfl
  split
  · split
    · refine (isSilent_record rfl).bind fun _ => (isSilent_onStore _).bind fun v => ?_
      exact (isSilent_moveTo _).bind fun _ => isSilent_pure _
    · exact (isSilent_record rfl).bind fun _ => isSilent_pure _
  · exact (isSilent_record rfl).bind fun _ => isSilent_pure _

omit [Token τ] [TokenValue π τ] in
theorem Parser.runFrom_reduce (nt : NonTerminal) (k : Nat) (r : Rule π) (results : List Value)
    (run : Run π) :
    (reduce nt k r results).runFrom run =
      match (Resolved.evalAction results r.action).runFrom run.store with
      | (.ok v, s) => (.ok v, { run with store := s, events := .reduce nt k v :: run.events })
      | (.error e, s) => (.error (.eval e), { run with store := s }) := by
  unfold reduce onEffect onStore
  rw [runFrom_bind, runFrom_bind, runFrom_ofState]
  rcases (Resolved.evalAction results r.action).runFrom run.store with ⟨e | v, s⟩ <;> rfl

/-! ### Notes beside the parse -/

/-- From `run`, the first step does what the second one does. It notes the reductions that are
recorded and the one that fails, all of which are in `P`. -/
def Annotates (P : Reduction π → Prop) (run : Run π) (x : Noting π α) (y : Parsing π α) : Prop :=
  ∀ notes, ∃ noted,
    x.runFrom (run, notes) = ((y.runFrom run).1, (y.runFrom run).2, notes ++ noted) ∧
    (y.runFrom run).2.reduced = run.reduced ++ noted.filterMap Reduction.event? ∧
    (∀ e, (y.runFrom run).1 = .error (.eval e) → ∃ ρ ∈ noted, ρ.outcome = .error e) ∧
    ∀ ρ ∈ noted, P ρ

namespace Annotates

variable {P : Reduction π → Prop} {run : Run π} {x : Noting π α} {y : Parsing π α}

theorem quiet (h : y.IsSilent) : Annotates P run (Noting.quiet y) y := by
  intro notes
  refine ⟨[], ?_, ?_, fun e he => absurd he ((h run).2 e), nofun⟩
  · rw [List.append_nil]
    rfl
  · rw [(h run).1]
    simp

theorem pure (a : α) : Annotates P run (pure a) (pure a) := quiet (isSilent_pure a)

theorem throw {e : ParseError} (h : ∀ c, e ≠ .eval c) :
    Annotates (α := α) P run (throw e) (throw e) := quiet (isSilent_throw h)

theorem bind {f : α → Noting π β} {g : α → Parsing π β} (h : Annotates P run x y)
    (hf : ∀ a after, y.runFrom run = (.ok a, after) → Annotates P after (f a) (g a)) :
    Annotates P run (x >>= f) (y >>= g) := by
  intro notes
  obtain ⟨noted, hx, hreduced, hfailed, hP⟩ := h notes
  rw [runFrom_bind, runFrom_bind, hx]
  rcases hy : y.runFrom run with ⟨e | a, after⟩
  · rw [hy] at hreduced hfailed
    refine ⟨noted, rfl, hreduced, ?_, hP⟩
    rintro c ⟨⟩
    exact hfailed c rfl
  · rw [hy] at hreduced
    obtain ⟨noted', hf, hreduced', hfailed', hP'⟩ := hf a after hy (notes ++ noted)
    refine ⟨noted ++ noted', ?_, ?_, ?_, List.forall_mem_append.mpr ⟨hP, hP'⟩⟩
    · rw [← List.append_assoc]
      exact hf
    · rw [hreduced', hreduced, List.filterMap_append, List.append_assoc]
    · intro e he
      obtain ⟨ρ, hρ, hout⟩ := hfailed' e he
      exact ⟨ρ, List.mem_append_right _ hρ, hout⟩

theorem reduce {nt : NonTerminal} {k start : Nat} {r : Rule π} {results : List Value}
    (hP : P ⟨nt, k, r, start, results,
      ((Resolved.evalAction results r.action).runFrom run.store).1⟩) :
    Annotates P run (Noting.reduce nt k r start results) (Parser.reduce nt k r results) := by
  intro notes
  refine ⟨[_], rfl, ?_, ?_, List.forall_mem_singleton.mpr hP⟩
  all_goals
    rw [Parser.runFrom_reduce]
    rcases (Resolved.evalAction results r.action).runFrom run.store with ⟨e | v, s⟩
  · simp [Run.reduced, Reduction.event?]
  · simp [Run.reduced, Reduction.event?, Event.isReduce]
  · rintro _ ⟨⟩
    exact ⟨_, List.mem_singleton_self _, rfl⟩
  · rintro _ ⟨⟩

end Annotates

end ActionGrammar
