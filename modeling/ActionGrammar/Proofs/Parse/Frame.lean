import ActionGrammar.Proofs.Parse.Limits
import ActionGrammar.Proofs.Parse.Positions

/-! # What an expansion leaves as it was

A rule that fails leaves the cursor wherever it came to, and so does every expansion that is
nested in it. Only the expansion that tries the rule takes the cursor back. Once an expansion has an
answer, all nonterminals entered in it have been left, each unit of fuel that is gone went into a
nonterminal entered or a terminal tested, and the cursor stands between where it was and the end
of the tokens, or where it was if nothing matches.
-/

namespace ActionGrammar

open Attempt

def Event.takesFuel : Event → Bool
  | .enter _ _ | .shift _ _ | .mismatch _ _ => true
  | _ => false

namespace Run

variable {π : Type} {run run' run'' : Run π} {l : Limits} {n : Nat} {es es' : List Event}
  {e : Event}

def fuelLeft (run : Run π) (l : Limits) : Option Nat := l.fuel.map fun f => f.toNat - run.steps

theorem fuelLeft_of_steps_eq (h : run'.steps = run.steps) :
    run.fuelLeft l = (run'.fuelLeft l).map (· + 0) := by
  rw [fuelLeft, fuelLeft, h, Option.map_map]
  rfl

def HasFuel (run : Run π) (l : Limits) : Prop := ∀ f, l.fuel = some f → run.steps < f.toNat

theorem HasFuel.fuelLeft_eq (h : run.HasFuel l) (hsteps : run'.steps = run.steps + 1) :
    run.fuelLeft l = (run'.fuelLeft l).map (· + 1) := by
  unfold fuelLeft
  cases hf : l.fuel with
  | none => rfl
  | some f =>
    have hlt := h f hf
    simp only [Option.map_some, Option.some.injEq]
    omega

/-- From one state to the other the events were recorded, the latest of which comes first. They
leave what they enter, they take the fuel that is gone, and they test no terminal behind `n`. -/
structure Advances (l : Limits) (n : Nat) (es : List Event) (run run' : Run π) : Prop where
  events : run'.events = es ++ run.events
  depth : Event.depth run'.events = Event.depth run.events
  fuel : run.fuelLeft l = (run'.fuelLeft l).map (· + es.countP Event.takesFuel)
  furthest_le : run.furthest ≤ run'.furthest
  le_max : run'.furthest ≤ max run.furthest n

namespace Advances

theorem of_eq (hevents : run'.events = run.events) (hsteps : run'.steps = run.steps)
    (hfurthest : run'.furthest = run.furthest) : Advances l n [] run run' where
  events := hevents
  depth := congrArg Event.depth hevents
  fuel := fuelLeft_of_steps_eq hsteps
  furthest_le := hfurthest.ge
  le_max := hfurthest.le.trans (Nat.le_max_left _ _)

theorem trans (h : Advances l n es run run') (h' : Advances l n es' run' run'') :
    Advances l n (es' ++ es) run run'' where
  events := by rw [h'.events, h.events, List.append_assoc]
  depth := h'.depth.trans h.depth
  fuel := by
    rw [h.fuel, h'.fuel, Option.map_map, List.countP_append]
    congr 1
    funext m
    exact Nat.add_assoc _ _ _
  furthest_le := h.furthest_le.trans h'.furthest_le
  le_max := by
    have hmax := h.le_max
    have hmax' := h'.le_max
    omega

theorem record (he : e.takesFuel = false) (he' : e.isExit = false)
    (hevents : run'.events = e :: run.events) (hsteps : run'.steps = run.steps)
    (hfurthest : run'.furthest = run.furthest) : Advances l n [e] run run' where
  events := hevents
  depth := by
    rw [hevents]
    cases e with
    | enter => cases he
    | _ => exact Event.depth_cons rfl he'
  fuel := by
    rw [List.countP_singleton, he]
    exact fuelLeft_of_steps_eq hsteps
  furthest_le := hfurthest.ge
  le_max := hfurthest.le.trans (Nat.le_max_left _ _)

theorem test {i : Nat} (hf : run.HasFuel l) (hi : i ≤ n) (he : e.takesFuel = true)
    (he' : e.isEnter = false) (hevents : run'.events = e :: run.events)
    (hsteps : run'.steps = run.steps + 1) (hfurthest : run'.furthest = max run.furthest i) :
    Advances l n [e] run run' where
  events := hevents
  depth := by
    rw [hevents]
    cases e with
    | exit => cases he
    | _ => exact Event.depth_cons he' rfl
  fuel := by
    rw [List.countP_singleton, he]
    exact hf.fuelLeft_eq hsteps
  furthest_le := hfurthest.ge.trans' (Nat.le_max_left _ _)
  le_max := by omega

theorem enclose {nt : NonTerminal} {matched : Bool} {i j : Nat} (hf : run.HasFuel l)
    (h : Advances l n es
      { run with steps := run.steps + 1, events := .enter nt i :: run.events } run') :
    Advances l n (.exit nt matched j :: (es ++ [.enter nt i])) run
      { run' with events := .exit nt matched j :: run'.events } where
  events := by simp [h.events]
  depth := by
    have hdepth : Event.depth run'.events = Event.depth run.events + 1 := h.depth
    rw [Event.depth, hdepth, Nat.add_sub_cancel]
  fuel := by
    have hcount : (Event.exit nt matched j :: (es ++ [.enter nt i])).countP Event.takesFuel =
        es.countP Event.takesFuel + 1 := by
      simp [Event.takesFuel]
    have hburned : run.fuelLeft l = (fuelLeft
        { run with steps := run.steps + 1, events := .enter nt i :: run.events } l).map (· + 1) :=
      hf.fuelLeft_eq rfl
    rw [hburned, h.fuel, Option.map_map, hcount]
    rfl
  furthest_le := h.furthest_le
  le_max := h.le_max

end Advances

end Run

namespace Parsing

variable {π : Type} {run : Run π} {l : Limits}

theorem ensures_burn_of_hasFuel {Q : Unit → Run π → Prop}
    (hQ : run.HasFuel l → Q () { run with steps := run.steps + 1 }) :
    (burn l).Ensures run Q fun _ => True := by
  unfold burn
  rw [ensures_bind, ensures_get]
  cases hf : l.fuel with
  | none => exact hQ fun f h => by simp [hf] at h
  | some f =>
    dsimp only
    split
    · trivial
    · rename_i hlt
      apply hQ
      intro f' h
      obtain rfl := Option.some.inj (hf.symm.trans h)
      exact Nat.lt_of_not_le hlt

end Parsing

namespace Parser

open Parsing Run

variable {π τ : Type} {p : Parser π τ} {tokens : Array τ} {run run' run'' : Run π}

def Progresses (p : Parser π τ) (tokens : Array τ) (run run' : Run π) : Prop :=
  ∃ es, Advances p.limits tokens.size es run run'

theorem Progresses.trans (h : p.Progresses tokens run run') (h' : p.Progresses tokens run' run'') :
    p.Progresses tokens run run'' := by
  obtain ⟨es, h⟩ := h
  obtain ⟨es', h'⟩ := h'
  exact ⟨es' ++ es, h.trans h'⟩

theorem progresses_attempt {nt : NonTerminal} {k i : Nat} : p.Progresses tokens run
    { run with cursor := i, events := .attempt nt k i :: run.events } :=
  ⟨_, .record rfl rfl rfl rfl rfl⟩

/-- Symbols that are matched one after the other move the cursor on, within the tokens. That is so
also where they do not match in the end. -/
structure GoesOn (p : Parser π τ) (tokens : Array τ) (run run' : Run π) : Prop where
  progresses : p.Progresses tokens run run'
  le_cursor : run.cursor ≤ run'.cursor
  cursor_le : run'.cursor ≤ tokens.size

theorem GoesOn.refl (h : run.cursor ≤ tokens.size) : p.GoesOn tokens run run :=
  ⟨⟨[], .of_eq rfl rfl rfl⟩, Nat.le_refl _, h⟩

theorem GoesOn.trans (h : p.GoesOn tokens run run') (h' : p.GoesOn tokens run' run'') :
    p.GoesOn tokens run run'' :=
  ⟨h.progresses.trans h'.progresses, h.le_cursor.trans h'.le_cursor, h'.cursor_le⟩

variable [Token τ] [TokenValue π τ] {nt : NonTerminal} {i k : Nat} {r : Rule π}
  {rules : List (Rule π)} {outcome : Outcome} {expand : NonTerminal → Parsing π (Option Value)}

theorem matchTerminal_goesOn (id : Terminal.Id) (h : run.cursor ≤ tokens.size) :
    (p.matchTerminal tokens id).Ensures run (fun _ => p.GoesOn tokens run) fun _ => True := by
  unfold matchTerminal
  rw [ensures_bind]
  apply ensures_burn_of_hasFuel
  intro hf
  rw [ensures_bind, ensures_ofLookup]
  refine ⟨fun terminal _ => ?_, fun _ _ => trivial⟩
  simp only [ensures_bind, ensures_cursor, ensures_modify]
  split
  · rename_i hx
    obtain ⟨hlt, -⟩ := Array.getElem?_eq_some_iff.mp hx
    split
    · exact ⟨⟨_, .test hf h rfl rfl rfl rfl rfl⟩, Nat.le_succ _, hlt⟩
    · exact ⟨⟨_, .test hf h rfl rfl rfl rfl rfl⟩, Nat.le_refl _, h⟩
  · exact ⟨⟨_, .test hf h rfl rfl rfl rfl rfl⟩, Nat.le_refl _, h⟩

/-- What nested nonterminals are expected to leave as it was. -/
def KeepsFrame (p : Parser π τ) (tokens : Array τ)
    (expand : NonTerminal → Parsing π (Option Value)) : Prop :=
  ∀ nt run, run.cursor ≤ tokens.size → (expand nt).Ensures run
    (fun result run' => p.GoesOn tokens run run' ∧ (result = none → run'.cursor = run.cursor))
    fun _ => True

theorem matchSymbol_goesOn (hE : p.KeepsFrame tokens expand) (s : Symbol)
    (h : run.cursor ≤ tokens.size) :
    (p.matchSymbol tokens expand s).Ensures run (fun _ => p.GoesOn tokens run) fun _ => True := by
  cases s with
  | terminal id =>
    rw [matchSymbol]
    split
    · exact .refl h
    · exact matchTerminal_goesOn id h
  | nonTerminal nt => exact (hE nt run h).mono (fun _ _ h => h.1) fun _ h => h

theorem matchSymbols_goesOn (hE : p.KeepsFrame tokens expand) (ss : List Symbol)
    (h : run.cursor ≤ tokens.size) :
    (p.matchSymbols tokens expand ss).Ensures run (fun _ => p.GoesOn tokens run)
      fun _ => True := by
  induction ss generalizing run with
  | nil => exact .refl h
  | cons s ss ih =>
    rw [matchSymbols_cons, ensures_bind]
    apply (matchSymbol_goesOn hE s h).mono _ fun _ h => h
    intro result run' hs
    cases result with
    | none => exact hs
    | some v =>
      simp only [ensures_bind, ensures_pure]
      exact (ih hs.cursor_le).mono (fun _ _ hss => hs.trans hss) fun _ h => h

def Outcome.IsWithin (outcome : Outcome) (i n : Nat) : Prop :=
  ∀ m, outcome.matched = some m → i ≤ m.stop ∧ m.stop ≤ n

theorem isWithin_none {epsilon : Option Nat} {n : Nat} :
    (⟨none, epsilon⟩ : Outcome).IsWithin i n := fun _ h => nomatch h

theorem tryRule_progresses (hE : p.KeepsFrame tokens expand) (hi : i ≤ tokens.size)
    (ho : outcome.IsWithin i tokens.size) :
    (p.tryRule tokens expand nt i rules outcome k r).Ensures run
      (fun outcome' run' => p.Progresses tokens run run' ∧ outcome'.IsWithin i tokens.size)
      fun _ => True := by
  unfold tryRule
  split
  · exact ⟨⟨[], .of_eq rfl rfl rfl⟩, ho⟩
  · simp only [ensures_bind, ensures_moveTo, ensures_record]
    apply (matchSymbols_goesOn hE r.symbols hi).mono _ fun _ h => h
    intro result run' hss
    cases result with
    | none =>
      simp only [ensures_bind, ensures_record, ensures_pure]
      have hback : p.Progresses tokens run'
          { run' with events := .backtrack nt k i :: run'.events } :=
        ⟨_, .record rfl rfl rfl rfl rfl⟩
      exact ⟨(progresses_attempt.trans hss.progresses).trans hback, ho⟩
    | some results =>
      simp only [reduce, ensures_bind, ensures_onEffect, ensures_record, ensures_pure]
      refine ⟨fun v s _ => ?_, fun _ _ _ => trivial⟩
      have hreduce : p.Progresses tokens run'
          { run' with store := s, events := .reduce nt k v :: run'.events } :=
        ⟨_, .record rfl rfl rfl rfl rfl⟩
      cases outcome.matched with
      | none =>
        simp only [ensures_bind, ensures_cursor, ensures_pure]
        refine ⟨(progresses_attempt.trans hss.progresses).trans hreduce, ?_⟩
        rintro m ⟨⟩
        exact ⟨hss.le_cursor, hss.cursor_le⟩
      | some earlier =>
        simp [ensures_ofLookup]

theorem tryRules_progresses (hE : p.KeepsFrame tokens expand) (hi : i ≤ tokens.size)
    (ho : outcome.IsWithin i tokens.size) (rest : List (Nat × Rule π)) :
    (p.tryRules tokens expand nt i rules outcome rest).Ensures run
      (fun outcome' run' => p.Progresses tokens run run' ∧ outcome'.IsWithin i tokens.size)
      fun _ => True := by
  induction rest generalizing outcome run with
  | nil => exact ⟨⟨[], .of_eq rfl rfl rfl⟩, ho⟩
  | cons kr rest ih =>
    rw [tryRules, ensures_bind]
    apply (tryRule_progresses hE hi ho).mono _ fun _ h => h
    rintro outcome' run' ⟨hone, ho'⟩
    exact (ih ho').mono (fun _ _ h => ⟨hone.trans h.1, h.2⟩) fun _ h => h

omit [Token τ] [TokenValue π τ] in
theorem conclude_progresses (hi : i ≤ tokens.size) (ho : outcome.IsWithin i tokens.size) :
    (conclude nt i rules outcome).Ensures run
      (fun result run' => p.Progresses tokens run run' ∧ i ≤ run'.cursor ∧
        run'.cursor ≤ tokens.size ∧ (result = none → run'.cursor = i))
      fun _ => True := by
  unfold conclude
  split
  · rename_i m hm
    obtain ⟨hle, hsize⟩ := ho m hm
    exact ⟨⟨[], .of_eq rfl rfl rfl⟩, hle, hsize, fun h => absurd h (Option.some_ne_none _)⟩
  · rw [ensures_bind, ensures_moveTo]
    split
    · simp only [reduce, ensures_bind, ensures_onEffect, ensures_record, ensures_pure]
      refine ⟨fun v s _ => ?_, fun _ _ _ => trivial⟩
      refine ⟨⟨_, .record rfl rfl rfl rfl rfl⟩, Nat.le_refl _, hi, ?_⟩
      exact fun h => absurd h (Option.some_ne_none _)
    · exact ⟨⟨[], .of_eq rfl rfl rfl⟩, Nat.le_refl _, hi, fun _ => rfl⟩
  · exact ⟨⟨[], .of_eq rfl rfl rfl⟩, Nat.le_refl _, hi, fun _ => rfl⟩

theorem keepsFrame_expand (p : Parser π τ) (tokens : Array τ) (room : Nat) :
    p.KeepsFrame tokens (p.expand tokens room) := by
  induction room with
  | zero =>
    intro nt run _
    unfold expand
    rw [ensures_bind]
    exact ensures_burn_of_hasFuel fun _ => trivial
  | succ room ih =>
    intro nt run hrun
    rw [expand_succ, ensures_bind]
    apply ensures_burn_of_hasFuel
    intro hf
    simp only [explore, ensures_bind, ensures_cursor, ensures_record, ensures_ofLookup]
    refine ⟨fun rules _ => ?_, fun _ _ => trivial⟩
    apply (tryRules_progresses ih hrun isWithin_none _).mono _ fun _ h => h
    rintro outcome run₁ ⟨htried, ho⟩
    apply (conclude_progresses (p := p) hrun ho).mono _ fun _ h => h
    rintro result run₂ ⟨hconcluded, hle, hsize, hnone⟩
    obtain ⟨es, hes⟩ := htried.trans hconcluded
    exact ⟨⟨⟨_, hes.enclose hf⟩, hle, hsize⟩, hnone⟩

/-! ### The states of a parse -/

/-- What comes before the expansion of a nonterminal in a rule: its own nonterminal is entered, the
rules in front of it are tried, and the symbols in front of the nonterminal match. -/
def approach (p : Parser π τ) (tokens : Array τ) (room : Nat) (nt : NonTerminal)
    (rules : List (Rule π)) (done : List (Nat × Rule π)) (k : Nat) (before : List Symbol) :
    Parsing π (Option (List Value)) := do
  burn p.limits
  let start ← cursor
  record (.enter nt start)
  let _ ← p.tryRules tokens (p.expand tokens room) nt start rules ⟨none, none⟩ done
  moveTo start
  record (.attempt nt k start)
  p.matchSymbols tokens (p.expand tokens room) before

theorem approach_ensures {room : Nat} {done : List (Nat × Rule π)} {before : List Symbol}
    (hrun : run.cursor ≤ tokens.size) :
    (p.approach tokens room nt rules done k before).Ensures run
      (fun _ run' => run'.cursor ≤ tokens.size ∧
        run'.furthest ≤ max run.furthest tokens.size ∧
        Event.depth run'.events = Event.depth run.events + 1)
      fun _ => True := by
  have hE := keepsFrame_expand p tokens room
  unfold approach
  rw [ensures_bind]
  apply ensures_burn_of_hasFuel
  intro _
  simp only [ensures_bind, ensures_cursor, ensures_record, ensures_moveTo]
  apply (tryRules_progresses hE hrun isWithin_none done).mono _ fun _ h => h
  rintro outcome run₁ ⟨htried, -⟩
  refine (matchSymbols_goesOn hE before ?_).mono ?_ fun _ h => h
  · exact hrun
  · intro results run₂ hmatched
    obtain ⟨es, hes⟩ := (htried.trans progresses_attempt).trans hmatched.progresses
    exact ⟨hmatched.cursor_le, hes.le_max, hes.depth⟩

/-- In a parse of the tokens from the store, the nonterminal is expanded in the state, with the
room for nested ones. -/
inductive Enters (p : Parser π τ) (tokens : Array τ) (s : Store π) :
    Nat → NonTerminal → Run π → Prop
  | start : Enters p tokens s p.limits.recursion.toNat p.grammar.start ⟨0, 0, 0, s, []⟩
  | nested {room k : Nat} {nt nt' : NonTerminal} {run run' : Run π} {rules : List (Rule π)}
      {done rest : List (Nat × Rule π)} {r : Rule π} {before after : List Symbol}
      {results : List Value} : Enters p tokens s (room + 1) nt run →
      p.grammar.rules nt = .ok rules →
      (List.range rules.length).zip rules = done ++ (k, r) :: rest → r.isEpsilon = false →
      r.symbols = before ++ .nonTerminal nt' :: after →
      (p.approach tokens room nt rules done k before).runFrom run = (.ok (some results), run') →
      Enters p tokens s room nt' run'

/-- Where a nonterminal is expanded, no terminal was tested behind the tokens, and the room is what
the limit leaves to those that are open. -/
theorem Enters.within {s : Store π} {room : Nat} (h : p.Enters tokens s room nt run) :
    run.cursor ≤ tokens.size ∧ run.furthest ≤ tokens.size ∧
      Event.depth run.events + room = p.limits.recursion.toNat := by
  induction h with
  | start => exact ⟨Nat.zero_le _, Nat.zero_le _, Nat.zero_add _⟩
  | nested _ _ _ _ _ happroach ih =>
    obtain ⟨hcursor, hfurthest, hdepth⟩ := ih
    obtain ⟨hcursor', hfurthest', hdepth'⟩ := (approach_ensures hcursor).of_ok happroach
    exact ⟨hcursor', by omega, by omega⟩

/-- From any state whose cursor is within the tokens, an expansion that has an answer ends with as
many nonterminals open as before. Each unit of fuel that is gone went into an event that takes it,
no terminal was tested behind the tokens, and the cursor is between where it was and their end, or
where it was if nothing matches. In the states of a parse no terminal was tested behind the tokens
before either, and as many nonterminals are open as the limit has room for, without the room that is
left. -/
theorem expand_frame (p : Parser π τ) (tokens : Array τ) :
    (∀ room nt run result run', run.cursor ≤ tokens.size →
      (p.expand tokens room nt).runFrom run = (.ok result, run') →
      Event.depth run'.events = Event.depth run.events ∧
      (∃ es, run'.events = es ++ run.events ∧
        run.fuelLeft p.limits =
          (run'.fuelLeft p.limits).map (· + es.countP Event.takesFuel)) ∧
      run.furthest ≤ run'.furthest ∧ run'.furthest ≤ max run.furthest tokens.size ∧
      run.cursor ≤ run'.cursor ∧ run'.cursor ≤ tokens.size ∧
      (result = none → run'.cursor = run.cursor)) ∧
    ∀ s room nt run, p.Enters tokens s room nt run →
      run.cursor ≤ tokens.size ∧ run.furthest ≤ tokens.size ∧
      Event.depth run.events + room = p.limits.recursion.toNat ∧
      ∀ result run', (p.expand tokens room nt).runFrom run = (.ok result, run') →
        run'.furthest ≤ tokens.size := by
  constructor
  · intro room nt run result run' hrun h
    obtain ⟨hgoes, hnone⟩ := (keepsFrame_expand p tokens room nt run hrun).of_ok h
    obtain ⟨es, hes⟩ := hgoes.progresses
    exact ⟨hes.depth, ⟨es, hes.events, hes.fuel⟩, hes.furthest_le, hes.le_max, hgoes.le_cursor,
      hgoes.cursor_le, hnone⟩
  · intro s room nt run h
    obtain ⟨hcursor, hfurthest, hdepth⟩ := h.within
    refine ⟨hcursor, hfurthest, hdepth, fun result run' h => ?_⟩
    obtain ⟨es, hes⟩ := ((keepsFrame_expand p tokens room nt run hcursor).of_ok h).1.progresses
    exact hes.le_max.trans (max_le hfurthest (Nat.le_refl _))

def meteredPair : Parser Unit GrammarText.Token := twoInts.withLimits ⟨some 9, 4⟩

def behindInt : Run Unit := ⟨1, 0, 2, ⟨#[]⟩, [.shift ⟨1⟩ 0, .attempt ⟨0⟩ 0 0, .enter ⟨0⟩ 0]⟩

theorem enters_behindInt : (ints.withLimits ⟨none, 2⟩).Enters oneInt ⟨#[]⟩ 1 ⟨0⟩ behindInt := by
  have happroach : ((ints.withLimits ⟨none, 2⟩).approach oneInt 1 ⟨0⟩
      [⟨[.terminal ⟨1⟩, .nonTerminal ⟨0⟩], [.constant (.int 0)]⟩,
        ⟨[.terminal ⟨0⟩], [.constant (.int 0)]⟩] [] 0 [.terminal ⟨1⟩]).runFrom
      ⟨0, 0, 0, ⟨#[]⟩, []⟩ = (.ok (some [.int 1]), behindInt) := by
    cbv
  exact .nested .start rfl rfl rfl rfl happroach

/-- One integer is no pair: the rule moves on behind it, and the expansion goes back. A sequence of
integers goes on behind it, where one nonterminal is open and there is room for one more. -/
theorem expand_frame_int :
    (∃ run', (meteredPair.expand oneInt 4 ⟨0⟩).runFrom ⟨0, 0, 0, ⟨#[]⟩, []⟩ = (.ok none, run') ∧
      .shift ⟨1⟩ 0 ∈ run'.events ∧ run'.cursor = 0 ∧ run'.furthest ≤ 1 ∧
      Event.depth run'.events = 0 ∧ run'.events.countP Event.takesFuel = 3 ∧
      some 9 = (run'.fuelLeft meteredPair.limits).map
        (· + run'.events.countP Event.takesFuel)) ∧
    behindInt.furthest ≤ 1 ∧ Event.depth behindInt.events + 1 = 2 := by
  constructor
  · obtain ⟨hframe, hparse⟩ := expand_frame meteredPair oneInt
    have h : (meteredPair.expand oneInt 4 ⟨0⟩).runFrom ⟨0, 0, 0, ⟨#[]⟩, []⟩ =
        (.ok none, ⟨0, 1, 3, ⟨#[]⟩, [.exit ⟨0⟩ false 0, .backtrack ⟨0⟩ 0 0, .mismatch ⟨1⟩ 1,
          .shift ⟨1⟩ 0, .attempt ⟨0⟩ 0 0, .enter ⟨0⟩ 0]⟩) := by
      cbv
    obtain ⟨hdepth, ⟨es, hes, hfuel⟩, -, -, -, -, hcursor⟩ := hframe _ _ _ _ _ (Nat.zero_le _) h
    rw [List.append_nil] at hes
    rw [← hes] at hfuel
    exact ⟨_, h, by simp, hcursor rfl, (hparse _ _ _ _ .start).2.2.2 _ _ h, hdepth, rfl, hfuel⟩
  · obtain ⟨-, hparse⟩ := expand_frame (ints.withLimits ⟨none, 2⟩) oneInt
    obtain ⟨-, hfurthest, hdepth, -⟩ := hparse _ _ _ _ enters_behindInt
    exact ⟨hfurthest, hdepth⟩

end Parser

end ActionGrammar
