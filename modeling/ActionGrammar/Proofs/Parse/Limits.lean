import ActionGrammar.Proofs.Parse.Congruence
import ActionGrammar.Proofs.Parse.Predictive

/-! # Limits cut a parse off

A parse under a limit does what it does without one, step by step, until it
needs more than the limit allows, and then it fails with the error of that
limit. What it needs is measured along the parse without the limit: the steps
that it takes, or how deep it nests.
-/

namespace ActionGrammar

open Attempt

structure Limits.AtMost (l l' : Limits) : Prop where
  fuel : ∀ f', l'.fuel = some f' → ∃ f, l.fuel = some f ∧ f ≤ f'
  recursion : l.recursion ≤ l'.recursion

/-- How many nonterminals have been entered and not left, by events of which the latest comes
first. -/
def Event.depth : List Event → Nat
  | [] => 0
  | .enter _ _ :: es => depth es + 1
  | .exit _ _ _ :: es => depth es - 1
  | _ :: es => depth es

def Event.peak : List Event → Nat
  | [] => 0
  | e :: es => max (depth (e :: es)) (peak es)

namespace Event

variable {e : Event} {es : List Event}

theorem depth_cons (he : e.isEnter = false) (he' : e.isExit = false) :
    depth (e :: es) = depth es := by
  cases e with
  | enter => cases he
  | exit => cases he'
  | _ => rfl

theorem depth_le_peak : depth es ≤ peak es := by
  cases es with
  | nil => exact Nat.le_refl 0
  | cons e es => exact Nat.le_max_left _ _

theorem peak_cons (he : e.isEnter = false) : peak (e :: es) = peak es := by
  have hle : depth (e :: es) ≤ depth es := by
    cases e with
    | enter => cases he
    | exit => exact Nat.sub_le _ _
    | _ => exact Nat.le_refl _
  exact Nat.max_eq_right (Nat.le_trans hle depth_le_peak)

end Event

/-- A measure of what a parse has used, and of what it asked for when it failed. -/
structure Meter (π : Type) where
  spent : Run π → Nat
  due : ParseError → Run π → Nat

namespace Meter

variable {π α : Type}

def cost (m : Meter π) : Except ParseError α × Run π → Nat
  | (.ok _, run) => m.spent run
  | (.error e, run) => max (m.spent run) (m.due e run)

/-- Only steps, entering a nonterminal and reaching a limit cost something. -/
structure IsFair (m : Meter π) : Prop where
  still : ∀ {run run' : Run π}, run'.steps = run.steps → run'.events = run.events →
    m.spent run' = m.spent run
  record : ∀ {run : Run π} {e : Event}, e.isEnter = false →
    m.spent { run with events := e :: run.events } = m.spent run
  due : ∀ {e run}, e.isLimit = false → m.due e run = 0

def steps : Meter π where
  spent run := run.steps
  due _ _ := 0

/-- How deep nonterminals nest, one that is not entered for lack of room included. -/
def nesting : Meter π where
  spent run := Event.peak run.events
  due
    | .recursionLimitExceeded _, run => Event.depth run.events + 1
    | _, _ => 0

theorem cost_steps (outcome : Except ParseError α × Run π) :
    steps.cost outcome = outcome.2.steps := by
  rcases outcome with ⟨_ | _, run⟩
  · exact Nat.max_zero _
  · rfl

theorem steps_isFair : (steps : Meter π).IsFair where
  still h _ := h
  record _ := rfl
  due _ := rfl

theorem nesting_isFair : (nesting : Meter π).IsFair where
  still _ h := congrArg Event.peak h
  record he := Event.peak_cons he
  due {e _} he := by
    cases e with
    | recursionLimitExceeded => cases he
    | _ => rfl

end Meter

namespace Parsing

variable {π α β : Type} {m : Meter π} {bound d d' d'' : Nat} {e : ParseError} {l l' : Limits}
  {x y : Parsing π α} {run : Run π}

/-- From `run`, the parse `y` does what `x` does if that costs no more than `bound`, and fails with
`e` if it costs more. -/
structure CutAt (m : Meter π) (bound : Nat) (e : ParseError) (d : Nat) (x y : Parsing π α)
    (run : Run π) : Prop where
  depth : ∀ {a run'}, x.runFrom run = (.ok a, run') → Event.depth run'.events = d
  grows : m.spent run ≤ m.cost (x.runFrom run)
  same : m.cost (x.runFrom run) ≤ bound → y.runFrom run = x.runFrom run
  stops : m.spent run ≤ bound → bound < m.cost (x.runFrom run) → (y.runFrom run).1 = .error e

/-- Inside of `d` nonterminals, `y` is `x` cut off at `bound`. In the end `d'` have been entered and
not left. -/
def Cuts (m : Meter π) (bound : Nat) (e : ParseError) (d d' : Nat) (x y : Parsing π α) : Prop :=
  ∀ run, Event.depth run.events = d → CutAt m bound e d' x y run

variable {err : ParseError} {a : α} {run' : Run π} {f f' : α → Parsing π β}

theorem runFrom_bind_of_ok (h : x.runFrom run = (.ok a, run')) :
    (x >>= f).runFrom run = (f a).runFrom run' := by
  rw [runFrom_bind, h]

theorem runFrom_bind_of_error (h : x.runFrom run = (.error err, run')) :
    (x >>= f).runFrom run = (.error err, run') := by
  rw [runFrom_bind, h]

theorem fst_runFrom_bind_of_error (h : (x.runFrom run).1 = .error err) :
    ((x >>= f).runFrom run).1 = .error err := by
  rw [runFrom_bind_of_error (Prod.ext h rfl)]

theorem CutAt.bind_error (h : CutAt m bound e d' x y run)
    (hr : x.runFrom run = (.error err, run')) :
    CutAt m bound e d'' (x >>= f) (y >>= f') run := by
  have hbind : (x >>= f).runFrom run = (.error err, run') := runFrom_bind_of_error hr
  have hcost : m.cost ((x >>= f).runFrom run) = m.cost (x.runFrom run) := by
    rw [hbind, hr]
    rfl
  refine ⟨fun hok => ?_, hcost ▸ h.grows, fun hle => ?_, fun hle hlt => ?_⟩
  · cases hbind.symm.trans hok
  · rw [hbind]
    exact runFrom_bind_of_error ((h.same (hcost ▸ hle)).trans hr)
  · exact fst_runFrom_bind_of_error (h.stops hle (hcost ▸ hlt))

theorem CutAt.bind_ok (h : CutAt m bound e d' x y run) (hr : x.runFrom run = (.ok a, run'))
    (hf : CutAt m bound e d'' (f a) (f' a) run') :
    CutAt m bound e d'' (x >>= f) (y >>= f') run := by
  have hbind : (x >>= f).runFrom run = (f a).runFrom run' := runFrom_bind_of_ok hr
  have hcost : m.cost (x.runFrom run) = m.spent run' := by
    rw [hr]
    rfl
  have hsame (hle : m.spent run' ≤ bound) : (y >>= f').runFrom run = (f' a).runFrom run' :=
    runFrom_bind_of_ok ((h.same (hcost ▸ hle)).trans hr)
  refine ⟨fun hok => hf.depth (hbind ▸ hok), ?_, fun hle => ?_, fun hle hlt => ?_⟩
  · rw [hbind]
    exact Nat.le_trans (hcost ▸ h.grows) hf.grows
  · rw [hbind] at hle ⊢
    rw [hsame (Nat.le_trans hf.grows hle), hf.same hle]
  · rw [hbind] at hlt
    rcases Nat.lt_or_ge bound (m.spent run') with hgt | hle'
    · exact fst_runFrom_bind_of_error (h.stops hle (hcost ▸ hgt))
    · rw [hsame hle']
      exact hf.stops hle' hlt

theorem Cuts.bind (h : Cuts m bound e d d' x y)
    (hf : ∀ a, Cuts m bound e d' d'' (f a) (f' a)) :
    Cuts m bound e d d'' (x >>= f) (y >>= f') := by
  intro run hd
  have hx := h run hd
  rcases hr : x.runFrom run with ⟨err | a, run'⟩
  · exact hx.bind_error hr
  · exact hx.bind_ok hr (hf a run' (hx.depth hr))

theorem cuts_of_ok {g : Run π → Run π} {f : Run π → α}
    (hx : ∀ run, x.runFrom run = (.ok (f run), g run))
    (hd : ∀ run, Event.depth run.events = d → Event.depth (g run).events = d')
    (hs : ∀ run, m.spent (g run) = m.spent run) : Cuts m bound e d d' x x := by
  intro run hrun
  have hcost : m.cost (x.runFrom run) = m.spent run := by
    rw [hx]
    exact hs run
  refine ⟨fun h => ?_, hcost.ge, fun _ => rfl, fun hle hlt => ?_⟩
  · rw [hx] at h
    cases h
    exact hd run hrun
  · omega

theorem cuts_throw {err : ParseError} (h : ∀ run, m.due err run = 0) :
    Cuts m bound e d d (throw err : Parsing π α) (throw err) := by
  intro run _
  have hcost : m.cost ((throw err : Parsing π α).runFrom run) = m.spent run := by
    rw [runFrom_throw, Meter.cost, h, Nat.max_zero]
  exact ⟨nofun, hcost.ge, fun _ => rfl, fun hle hlt => by omega⟩

theorem cuts_congruence (hm : m.IsFair)
    (hburn : ∀ d, Cuts m bound e d d (burn l) (burn l')) (d : Nat) :
    Congruence l l' fun {α} (x y : Parsing π α) => Cuts m bound e d d x y where
  ofExcept r hr := by
    cases r with
    | ok a => exact cuts_of_ok (fun _ => rfl) (fun _ h => h) fun _ => rfl
    | error err => exact cuts_throw fun _ => hm.due (hr err rfl)
  bind := Cuts.bind
  onStore _ := cuts_of_ok (fun _ => rfl) (fun _ h => h) fun _ => hm.still rfl rfl
  burn := hburn d
  cursor := cuts_of_ok (fun _ => rfl) (fun _ h => h) fun _ => rfl
  moveTo _ := cuts_of_ok (fun _ => rfl) (fun _ h => h) fun _ => hm.still rfl rfl
  test _ := cuts_of_ok (fun _ => rfl) (fun _ h => h) fun _ => hm.still rfl rfl
  record _ he he' := cuts_of_ok (fun _ => rfl) (fun _ h => (Event.depth_cons he he').trans h)
    fun _ => hm.record he

theorem cuts_exit (hm : m.IsFair) {nt : NonTerminal} {matched : Bool} {i : Nat} :
    Cuts m bound e (d + 1) d (record (.exit nt matched i) : Parsing π Unit)
      (record (.exit nt matched i)) :=
  cuts_of_ok (fun _ => rfl) (fun _ h => by simp [Event.depth, h]) fun _ => hm.record rfl

theorem runFrom_burn (hl : l.fuel = none) (run : Run π) :
    (burn l).runFrom run = (.ok (), { run with steps := run.steps + 1 }) := by
  unfold burn
  rw [hl]
  rfl

theorem cuts_burn_fuel {L : UInt32} {f : UInt32} (d : Nat) :
    Cuts .steps f.toNat (.fuelExhausted f) d d (burn ⟨none, L⟩ : Parsing π Unit)
      (burn ⟨some f, L⟩) := by
  intro run hrun
  have hx := runFrom_burn (l := ⟨none, L⟩) rfl run
  have hcost : Meter.steps.cost ((burn ⟨none, L⟩).runFrom run) = run.steps + 1 := by rw [hx]; rfl
  have hy : (burn ⟨some f, L⟩).runFrom run = if f.toNat ≤ run.steps then
      (.error (.fuelExhausted f), run) else (.ok (), { run with steps := run.steps + 1 }) := by
    unfold burn
    simp only [runFrom_bind, runFrom_get]
    split <;> rfl
  refine ⟨fun h => ?_, hcost.ge.trans' (Nat.le_succ _), fun hle => ?_, fun _ hlt => ?_⟩
  · rw [hx] at h
    cases h
    exact hrun
  · rw [hy, hx, if_neg (by omega)]
  · rw [hy, if_pos (by omega)]

theorem cuts_burn_nesting {L L' : UInt32} (d : Nat) :
    Cuts .nesting bound e d d (burn ⟨none, L'⟩ : Parsing π Unit) (burn ⟨none, L⟩) :=
  cuts_of_ok (runFrom_burn rfl) (fun _ h => h) fun _ => rfl

theorem cuts_enter_fuel {nt : NonTerminal} {i : Nat} :
    Cuts .steps bound e d (d + 1) (record (.enter nt i) : Parsing π Unit) (record (.enter nt i)) :=
  cuts_of_ok (fun _ => rfl) (fun _ h => by rw [← h]; rfl) fun _ => rfl

theorem cuts_enter_nesting {nt : NonTerminal} {i : Nat} {y : Parsing π Unit}
    (hlt : d < bound → y = record (.enter nt i)) (hle : bound ≤ d → y = throw e) :
    Cuts .nesting bound e d (d + 1) (record (.enter nt i)) y := by
  intro run hrun
  have hx : (record (.enter nt i)).runFrom run =
      (.ok (), { run with events := .enter nt i :: run.events }) := rfl
  have hcost : Meter.nesting.cost ((record (.enter nt i)).runFrom run) =
      max (d + 1) (Event.peak run.events) := by
    rw [hx, ← hrun]
    rfl
  refine ⟨fun h => ?_, ?_, fun h => ?_, fun h h' => ?_⟩
  · rw [hx] at h
    cases h
    rw [← hrun]
    rfl
  · rw [hcost]
    exact Nat.le_max_right _ _
  · rw [hlt (by omega)]
  · have : Event.peak run.events ≤ bound := h
    rw [hle (by omega), runFrom_throw]

theorem cuts_throw_nesting {L L' : UInt32} (h : L.toNat ≤ d) :
    Cuts .nesting L.toNat (.recursionLimitExceeded L) d d
      (throw (.recursionLimitExceeded L') : Parsing π α) (throw (.recursionLimitExceeded L)) := by
  intro run hrun
  have hcost : Meter.nesting.cost ((throw (.recursionLimitExceeded L') : Parsing π α).runFrom run) =
      max (Event.peak run.events) (d + 1) := by
    rw [← hrun]
    rfl
  refine ⟨nofun, ?_, fun hle => ?_, fun _ _ => rfl⟩
  · rw [hcost]
    exact Nat.le_max_left _ _
  · omega

end Parsing

namespace Parser

open Parsing

variable {π τ : Type} [Token τ] [TokenValue π τ] {p p' : Parser π τ} {tokens : Array τ}
  {nt : NonTerminal} {start room : Nat}

/-- What an expansion does once it has entered the nonterminal. -/
def explore (p : Parser π τ) (tokens : Array τ) (expand : NonTerminal → Parsing π (Option Value))
    (nt : NonTerminal) (start : Nat) : Parsing π (Option Value) := do
  let rules ← ofLookup (p.grammar.rules nt)
  let indexed := (List.range rules.length).zip rules
  let outcome ← p.tryRules tokens expand nt start rules ⟨none, none⟩ indexed
  let result ← conclude nt start rules outcome
  record (.exit nt result.isSome (← cursor))
  return result

theorem expand_succ : p.expand tokens (room + 1) nt = (do
    burn p.limits
    let start ← cursor
    record (.enter nt start)
    p.explore tokens (p.expand tokens room) nt start) := rfl

variable {m : Meter π} {bound d : Nat} {e : ParseError}
  {expand expand' : NonTerminal → Parsing π (Option Value)}

theorem explore_cuts (hm : m.IsFair)
    (hburn : ∀ d, Cuts m bound e d d (burn p.limits) (burn p'.limits))
    (hg : p.grammar = p'.grammar)
    (hE : ∀ nt, Cuts m bound e (d + 1) (d + 1) (expand nt) (expand' nt)) :
    Cuts m bound e (d + 1) d (p.explore tokens expand nt start)
      (p'.explore tokens expand' nt start) := by
  have inside := cuts_congruence hm hburn (d + 1)
  have outside := cuts_congruence hm hburn d
  unfold explore
  rw [hg]
  refine Cuts.bind (inside.ofLookup _) fun rules => ?_
  refine Cuts.bind (tryRules_rel inside hg _ _ hE _) fun outcome => ?_
  refine Cuts.bind (conclude_rel inside) fun result => Cuts.bind inside.cursor fun stop => ?_
  exact Cuts.bind (cuts_exit hm) fun _ => outside.pure result

theorem expand_cuts_fuel {L f : UInt32} (hp : p.limits = ⟨none, L⟩) (hp' : p'.limits = ⟨some f, L⟩)
    (hg : p.grammar = p'.grammar) :
    Cuts .steps f.toNat (.fuelExhausted f) d d (p.expand tokens room nt)
      (p'.expand tokens room nt) := by
  have hburn (d : Nat) : Cuts .steps f.toNat (.fuelExhausted f) d d (burn p.limits : Parsing π Unit)
      (burn p'.limits) := by
    rw [hp, hp']
    exact cuts_burn_fuel d
  have outside := cuts_congruence Meter.steps_isFair hburn
  induction room generalizing d nt with
  | zero =>
    rw [expand, expand, hp, hp']
    exact Cuts.bind (hp ▸ hp' ▸ hburn d) fun _ => cuts_throw fun _ => rfl
  | succ room ih =>
    rw [expand_succ, expand_succ]
    refine Cuts.bind (hburn d) fun _ => Cuts.bind (outside d).cursor fun start => ?_
    exact Cuts.bind cuts_enter_fuel fun _ => explore_cuts Meter.steps_isFair hburn hg fun _ => ih

theorem expand_cuts_nesting {L L' : UInt32} {room' : Nat} (hp : p.limits = ⟨none, L'⟩)
    (hp' : p'.limits = ⟨none, L⟩) (hg : p.grammar = p'.grammar) (hroom : room' = L.toNat - d)
    (hle : room' ≤ room) :
    Cuts .nesting L.toNat (.recursionLimitExceeded L) d d (p.expand tokens room nt)
      (p'.expand tokens room' nt) := by
  have hburn (d : Nat) : Cuts .nesting L.toNat (.recursionLimitExceeded L) d d
      (burn p.limits : Parsing π Unit) (burn p'.limits) := by
    rw [hp, hp']
    exact cuts_burn_nesting d
  have outside := cuts_congruence Meter.nesting_isFair hburn
  induction room generalizing d nt room' with
  | zero =>
    obtain rfl : room' = 0 := by omega
    rw [expand, expand]
    refine Cuts.bind (hburn d) fun _ => ?_
    rw [hp, hp']
    exact cuts_throw_nesting (by omega)
  | succ room ih =>
    have hrest (start : Nat) : Cuts .nesting L.toNat (.recursionLimitExceeded L) (d + 1) d
        (p.explore tokens (p.expand tokens room) nt start)
        (p'.explore tokens (p'.expand tokens (L.toNat - (d + 1))) nt start) :=
      explore_cuts Meter.nesting_isFair hburn hg fun _ => ih rfl (by omega)
    rw [expand_succ]
    cases room' with
    | zero =>
      -- Nothing is entered any more, which is as good as failing in its place.
      have hstop : p'.expand tokens 0 nt = (do
          burn p'.limits
          let start ← cursor
          throw (.recursionLimitExceeded L)
          p'.explore tokens (p'.expand tokens (L.toNat - (d + 1))) nt start) := by
        rw [expand, hp']
        rfl
      rw [hstop]
      refine Cuts.bind (hburn d) fun _ => Cuts.bind (outside d).cursor fun start => ?_
      exact Cuts.bind (cuts_enter_nesting (by omega) fun _ => rfl) fun _ => hrest start
    | succ room' =>
      obtain rfl : room' = L.toNat - (d + 1) := by omega
      rw [expand_succ]
      refine Cuts.bind (hburn d) fun _ => Cuts.bind (outside d).cursor fun start => ?_
      exact Cuts.bind (cuts_enter_nesting (fun _ => rfl) (by omega)) fun _ => hrest start

theorem parseTokens_cuts (hm : m.IsFair)
    (h : Cuts m bound e 0 0 (p.expand tokens p.limits.recursion.toNat p.grammar.start)
      (p'.expand tokens p'.limits.recursion.toNat p'.grammar.start)) :
    Cuts m bound e 0 0 (p.parseTokens tokens) (p'.parseTokens tokens) := by
  have hget : Cuts m bound e 0 0 (get : Parsing π (Run π)) get :=
    cuts_of_ok (fun _ => rfl) (fun _ h => h) fun _ => rfl
  have hpure (v : Value) : Cuts m bound e 0 0 (pure v : Parsing π Value) (pure v) :=
    cuts_of_ok (fun _ => rfl) (fun _ h => h) fun _ => rfl
  unfold parseTokens
  refine Cuts.bind h fun result => ?_
  cases result with
  | none => exact Cuts.bind hget fun _ => cuts_throw fun _ => hm.due rfl
  | some v =>
    refine Cuts.bind hget fun run => ?_
    split
    · exact Cuts.bind (cuts_throw fun _ => hm.due rfl) fun _ => hpure v
    · exact hpure v

def finish (p : Parser π τ) (tokens : Array τ) (s : Store π) : Except ParseError Value × Run π :=
  (p.parseTokens tokens).runFrom ⟨0, 0, 0, s, []⟩

theorem run_eq_finish {s : Store π} :
    p.run tokens s = (((p.finish tokens s).1, (p.finish tokens s).2.events.reverse),
      (p.finish tokens s).2.store) := rfl

variable (p tokens) (s : Store π)

theorem parseTokens_fuel (L f : UInt32) :
    Cuts .steps f.toNat (.fuelExhausted f) 0 0 ((p.withLimits ⟨none, L⟩).parseTokens tokens)
      ((p.withLimits ⟨some f, L⟩).parseTokens tokens) := by
  refine parseTokens_cuts Meter.steps_isFair ?_
  exact expand_cuts_fuel rfl rfl rfl

theorem parseTokens_nesting {L L' : UInt32} (h : L ≤ L') :
    Cuts .nesting L.toNat (.recursionLimitExceeded L) 0 0
      ((p.withLimits ⟨none, L'⟩).parseTokens tokens)
      ((p.withLimits ⟨none, L⟩).parseTokens tokens) := by
  refine parseTokens_cuts Meter.nesting_isFair ?_
  exact expand_cuts_nesting rfl rfl rfl (Nat.sub_zero _).symm (UInt32.le_iff_toNat_le.mp h)

variable {p tokens s}

theorem finish_fuel {L f : UInt32}
    (h : ((p.withLimits ⟨none, L⟩).finish tokens s).2.steps ≤ f.toNat) :
    (p.withLimits ⟨some f, L⟩).finish tokens s = (p.withLimits ⟨none, L⟩).finish tokens s :=
  (parseTokens_fuel p tokens L f _ rfl).same (by rwa [Meter.cost_steps])

theorem finish_fuelExhausted {L f : UInt32}
    (h : f.toNat < ((p.withLimits ⟨none, L⟩).finish tokens s).2.steps) :
    ((p.withLimits ⟨some f, L⟩).finish tokens s).1 = .error (.fuelExhausted f) :=
  (parseTokens_fuel p tokens L f _ rfl).stops (Nat.zero_le _) (by rwa [Meter.cost_steps])

theorem finish_nesting {L L' : UInt32} (hle : L ≤ L')
    (h : Meter.nesting.cost ((p.withLimits ⟨none, L'⟩).finish tokens s) ≤ L.toNat) :
    (p.withLimits ⟨none, L⟩).finish tokens s = (p.withLimits ⟨none, L'⟩).finish tokens s :=
  (parseTokens_nesting p tokens hle _ rfl).same h

theorem finish_recursionLimitExceeded {L L' : UInt32} (hle : L ≤ L')
    (h : L.toNat < Meter.nesting.cost ((p.withLimits ⟨none, L'⟩).finish tokens s)) :
    ((p.withLimits ⟨none, L⟩).finish tokens s).1 = .error (.recursionLimitExceeded L) :=
  (parseTokens_nesting p tokens hle _ rfl).stops (Nat.zero_le _) h

theorem finish_within {l : Limits}
    (h : ∀ e, ((p.withLimits l).finish tokens s).1 = .error e → e.isLimit = false) :
    (p.withLimits l).finish tokens s = (p.withLimits ⟨none, l.recursion⟩).finish tokens s ∧
      ∀ f, l.fuel = some f →
        ((p.withLimits ⟨none, l.recursion⟩).finish tokens s).2.steps ≤ f.toNat := by
  obtain ⟨_ | f, L⟩ := l
  · exact ⟨rfl, nofun⟩
  · have hle : ((p.withLimits ⟨none, L⟩).finish tokens s).2.steps ≤ f.toNat := by
      by_contra hgt
      cases h _ (finish_fuelExhausted (Nat.lt_of_not_le hgt))
    exact ⟨finish_fuel hle, fun f' hf => Option.some.inj hf ▸ hle⟩

theorem finish_atMost {l l' : Limits} (hle : l.AtMost l')
    (h : ∀ e, ((p.withLimits l).finish tokens s).1 = .error e → e.isLimit = false) :
    (p.withLimits l').finish tokens s = (p.withLimits l).finish tokens s := by
  obtain ⟨hsame, hsteps⟩ := finish_within h
  have hnest : (p.withLimits ⟨none, l.recursion⟩).finish tokens s =
      (p.withLimits ⟨none, l'.recursion⟩).finish tokens s := by
    refine finish_nesting hle.recursion ?_
    by_contra hgt
    rw [hsame] at h
    cases h _ (finish_recursionLimitExceeded hle.recursion (Nat.lt_of_not_le hgt))
  rw [hsame, hnest]
  obtain ⟨fuel', L'⟩ := l'
  cases fuel' with
  | none => rfl
  | some f' =>
    obtain ⟨f, hf, hff'⟩ := hle.fuel f' rfl
    refine finish_fuel ?_
    rw [← hnest]
    exact Nat.le_trans (hsteps f hf) (UInt32.le_iff_toNat_le.mp hff')

/-- A limit changes nothing as long as the parse without it stays within, and is reported exactly
if it does not: for fuel that is a matter of the steps taken, and for nesting of the deepest one
asked for. So a parse that reports no limit is the same under all larger ones. -/
theorem run_limits (p : Parser π τ) (tokens : Array τ) (s : Store π) :
    (∀ L f : UInt32,
      (((p.withLimits ⟨none, L⟩).finish tokens s).2.steps ≤ f.toNat →
        (p.withLimits ⟨some f, L⟩).run tokens s = (p.withLimits ⟨none, L⟩).run tokens s) ∧
      (f.toNat < ((p.withLimits ⟨none, L⟩).finish tokens s).2.steps →
        ((p.withLimits ⟨some f, L⟩).run tokens s).1.1 = .error (.fuelExhausted f))) ∧
    (∀ L L' : UInt32, L ≤ L' →
      (Meter.nesting.cost ((p.withLimits ⟨none, L'⟩).finish tokens s) ≤ L.toNat →
        (p.withLimits ⟨none, L⟩).run tokens s = (p.withLimits ⟨none, L'⟩).run tokens s) ∧
      (L.toNat < Meter.nesting.cost ((p.withLimits ⟨none, L'⟩).finish tokens s) →
        ((p.withLimits ⟨none, L⟩).run tokens s).1.1 = .error (.recursionLimitExceeded L))) ∧
    ∀ l l' : Limits, l.AtMost l' →
      (∀ e, ((p.withLimits l).run tokens s).1.1 = .error e → e.isLimit = false) →
      (p.withLimits l').run tokens s = (p.withLimits l).run tokens s := by
  refine ⟨fun L f => ⟨fun h => ?_, finish_fuelExhausted⟩,
    fun L L' hle => ⟨fun h => ?_, finish_recursionLimitExceeded hle⟩, fun l l' hle h => ?_⟩
  · rw [run_eq_finish, run_eq_finish, finish_fuel h]
  · rw [run_eq_finish, run_eq_finish, finish_nesting hle h]
  · rw [run_eq_finish, run_eq_finish, finish_atMost hle h]

def oneInt : Array GrammarText.Token := #[⟨.int, 0, 1, some (.int 1)⟩]

/-- One integer takes four steps and nests two sequences. -/
theorem run_limits_int :
    (ints.withLimits ⟨some 4, 2⟩).run oneInt ⟨#[]⟩ = (ints.withLimits ⟨none, 2⟩).run oneInt ⟨#[]⟩ ∧
    ((ints.withLimits ⟨some 3, 2⟩).run oneInt ⟨#[]⟩).1.1 = .error (.fuelExhausted 3) ∧
    (ints.withLimits ⟨none, 2⟩).run oneInt ⟨#[]⟩ = (ints.withLimits ⟨none, 9⟩).run oneInt ⟨#[]⟩ ∧
    ((ints.withLimits ⟨none, 1⟩).run oneInt ⟨#[]⟩).1.1 = .error (.recursionLimitExceeded 1) ∧
    (ints.withLimits ⟨none, 9⟩).run oneInt ⟨#[]⟩ =
      (ints.withLimits ⟨some 4, 2⟩).run oneInt ⟨#[]⟩ := by
  obtain ⟨hfuel, hnesting, hlarger⟩ := run_limits ints oneInt ⟨#[]⟩
  have hsteps : ((ints.withLimits ⟨none, 2⟩).finish oneInt ⟨#[]⟩).2.steps = 4 := by cbv
  have hrun : (ints.withLimits ⟨none, 9⟩).finish oneInt ⟨#[]⟩ =
      (.ok (.int 0), ⟨1, 1, 4, ⟨#[]⟩, [.exit ⟨0⟩ true 1, .reduce ⟨0⟩ 0 (.int 0), .exit ⟨0⟩ true 1,
        .reduce ⟨0⟩ 1 (.int 0), .backtrack ⟨0⟩ 0 1, .mismatch ⟨1⟩ 1, .attempt ⟨0⟩ 0 1,
        .enter ⟨0⟩ 1, .shift ⟨1⟩ 0, .attempt ⟨0⟩ 0 0, .enter ⟨0⟩ 0]⟩) := by cbv
  have hdepth : Meter.nesting.cost ((ints.withLimits ⟨none, 9⟩).finish oneInt ⟨#[]⟩) = 2 := by
    rw [hrun]
    rfl
  have hok : ((ints.withLimits ⟨some 4, 2⟩).run oneInt ⟨#[]⟩).1.1 = .ok (.int 0) := by cbv
  refine ⟨(hfuel 2 4).1 ?_, (hfuel 2 3).2 ?_, (hnesting 2 9 (by decide)).1 ?_,
    (hnesting 1 9 (by decide)).2 ?_, hlarger ⟨some 4, 2⟩ ⟨none, 9⟩ ⟨by simp, by decide⟩ ?_⟩
  · rw [hsteps]
    decide
  · rw [hsteps]
    decide
  · rw [hdepth]
    decide
  · rw [hdepth]
    decide
  · intro e he
    cases hok.symm.trans he

end Parser

end ActionGrammar
