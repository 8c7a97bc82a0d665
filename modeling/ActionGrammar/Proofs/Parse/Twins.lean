import ActionGrammar.GrammarText.Token
import ActionGrammar.Proofs.Parse.Choice
import ActionGrammar.Proofs.Parse.Engine

/-! # Rules with the same symbols

Two rules of a nonterminal that have the same symbols either match both or not
at all, so that a parse that succeeds has used neither. This fails for rules
that are the empty string alone: the last one is used, and no ambiguity is
reported. The events of a parse show where that happens.
-/

namespace ActionGrammar

open Attempt

variable {π τ : Type} [Token τ]

/-- What an event tells about a parse that goes on without an error. -/
def Event.Tells (g : Grammar π τ) (tokens : List τ) (events : List Event) : Event → Prop
  | .enter nt i => ∀ k, g.FallsBack tokens nt k i → ∃ v, .reduce nt k v ∈ events
  | .reduce nt k _ => ∃ i, .enter nt i ∈ events ∧ g.Chooses tokens nt k i
  | _ => True

theorem Event.Tells.mono {g : Grammar π τ} {tokens : List τ} {events events' : List Event}
    {e : Event} (h : e.Tells g tokens events) (hsub : events ⊆ events') :
    e.Tells g tokens events' := by
  cases e with
  | enter nt i =>
    intro k hk
    obtain ⟨v, hv⟩ := h k hk
    exact ⟨v, hsub hv⟩
  | reduce nt k v =>
    obtain ⟨i, hi, hc⟩ := h
    exact ⟨i, hsub hi, hc⟩
  | _ => trivial

namespace Parser

open Parsing

variable {p : Parser π τ} {tokens : Array τ} {run run' run'' : Run π} {pending : Event → Prop}

/-- From one run to the other, all events but those that are pending tell the truth. -/
def Logs (p : Parser π τ) (tokens : Array τ) (pending : Event → Prop) (run run' : Run π) : Prop :=
  ∃ new, run'.events = new ++ run.events ∧
    ∀ e ∈ new, pending e ∨ e.Tells p.grammar tokens.toList run'.events

theorem Logs.of_eq (h : run'.events = run.events) : p.Logs tokens pending run run' :=
  ⟨[], h, fun _ he => nomatch he⟩

theorem Logs.mono {pending' : Event → Prop} (h : p.Logs tokens pending run run')
    (hp : ∀ e, pending e → pending' e) : p.Logs tokens pending' run run' := by
  obtain ⟨new, hnew, hall⟩ := h
  exact ⟨new, hnew, fun e he => (hall e he).imp (hp e) id⟩

theorem Logs.trans (h : p.Logs tokens pending run run') (h' : p.Logs tokens pending run' run'') :
    p.Logs tokens pending run run'' := by
  obtain ⟨new, hnew, hall⟩ := h
  obtain ⟨new', hnew', hall'⟩ := h'
  refine ⟨new' ++ new, by rw [hnew', hnew, List.append_assoc], fun e he => ?_⟩
  rcases List.mem_append.mp he with he | he
  · exact hall' e he
  · exact (hall e he).imp id fun h => h.mono (by simp [hnew'])

theorem Logs.of_cons {e : Event} (h : run'.events = e :: run.events)
    (he : pending e ∨ e.Tells p.grammar tokens.toList run'.events) :
    p.Logs tokens pending run run' :=
  ⟨[e], h, fun _ h => List.mem_singleton.mp h ▸ he⟩

theorem Logs.close {e₀ : Event} {run₀ run₁ : Run π} (h : p.Logs tokens pending run₁ run)
    (h₁ : run₁.events = e₀ :: run₀.events)
    (he₀ : e₀.Tells p.grammar tokens.toList run.events)
    (hp : e₀ ∈ run.events → ∀ e, pending e → e.Tells p.grammar tokens.toList run.events) :
    p.Logs tokens (fun _ => False) run₀ run := by
  obtain ⟨new, hnew, hall⟩ := h
  rw [h₁] at hnew
  have hmem : e₀ ∈ run.events := by simp [hnew]
  refine ⟨new ++ [e₀], by simp [hnew], fun e he => .inr ?_⟩
  rcases List.mem_append.mp he with he | he
  · exact (hall e he).elim (hp hmem e) id
  · rwa [List.mem_singleton.mp he]

variable [TokenValue π τ]

theorem matchTerminal_logs (id : Terminal.Id) :
    (p.matchTerminal tokens id).Ensures run (fun _ => p.Logs tokens (fun _ => False) run)
      fun _ => True := by
  unfold matchTerminal
  simp only [ensures_bind]
  refine ensures_burn ?_ fun _ _ => trivial
  rw [ensures_ofLookup]
  refine ⟨fun terminal _ => ?_, fun _ _ => trivial⟩
  simp only [ensures_cursor, ensures_modify]
  split
  · split
    · exact .of_cons rfl (.inr trivial)
    · exact .of_cons rfl (.inr trivial)
  · exact .of_cons rfl (.inr trivial)

def LogsNested (p : Parser π τ) (tokens : Array τ)
    (expand : NonTerminal → Parsing π (Option Value)) : Prop :=
  ∀ nt run, (expand nt).Ensures run (fun _ => p.Logs tokens (fun _ => False) run) fun _ => True

variable {expand : NonTerminal → Parsing π (Option Value)}

theorem matchSymbol_logs (hE : p.LogsNested tokens expand) (s : Symbol) :
    (p.matchSymbol tokens expand s).Ensures run (fun _ => p.Logs tokens (fun _ => False) run)
      fun _ => True := by
  cases s with
  | terminal id =>
    rw [matchSymbol]
    split
    · exact Logs.of_eq rfl
    · exact matchTerminal_logs id
  | nonTerminal nt => exact hE nt run

theorem matchSymbols_logs (hE : p.LogsNested tokens expand) (ss : List Symbol) (run : Run π) :
    (p.matchSymbols tokens expand ss).Ensures run (fun _ => p.Logs tokens (fun _ => False) run)
      fun _ => True := by
  induction ss generalizing run with
  | nil => exact Logs.of_eq rfl
  | cons s ss ih =>
    rw [matchSymbols_cons, ensures_bind]
    refine (matchSymbol_logs hE s).mono (fun result run' h => ?_) fun _ h => h
    cases result with
    | none => exact h
    | some v =>
      simp only [ensures_bind, ensures_pure]
      exact (ih run').mono (fun results run'' h' => h.trans h') fun _ h => h

/-- The events of a rule that matched are pending until all rules have been tried. -/
def Outcome.Pends (nt : NonTerminal) (outcome : Outcome) (e : Event) : Prop :=
  ∃ m v, outcome.matched = some m ∧ e = .reduce nt m.rule v

variable {nt : NonTerminal} {i k : Nat} {r : Rule π} {rules : List (Rule π)} {outcome : Outcome}

theorem tryRule_logs (hE : p.LogsNested tokens expand)
    (h : p.Logs tokens (outcome.Pends nt) run run') :
    (p.tryRule tokens expand nt i rules outcome k r).Ensures run'
      (fun o => p.Logs tokens (o.Pends nt) run) fun _ => True := by
  unfold tryRule
  split
  · exact h
  · simp only [ensures_bind, ensures_moveTo, ensures_record]
    refine (matchSymbols_logs hE r.symbols _).mono (fun result run'' h' => ?_) fun _ h => h
    have h'' : p.Logs tokens (outcome.Pends nt) run run'' := by
      refine h.trans (Logs.trans ?_ (h'.mono fun _ h => h.elim))
      exact .of_cons rfl (.inr trivial)
    cases result with
    | none =>
      simp only [ensures_bind, ensures_record, ensures_pure]
      exact h''.trans (.of_cons rfl (.inr trivial))
    | some results =>
      simp only [reduce, ensures_bind, ensures_onEffect, ensures_record, ensures_pure]
      refine ⟨fun v s _ => ?_, fun _ _ _ => trivial⟩
      cases ho : outcome.matched with
      | none =>
        simp only [ensures_bind, ensures_cursor, ensures_pure]
        refine (h''.mono ?_).trans (.of_cons rfl (.inl ⟨_, v, rfl, rfl⟩))
        rintro e ⟨m, w, hm, -⟩
        cases hm.symm.trans ho
      | some earlier =>
        simp only [ensures_bind, ensures_ofLookup, ensures_throw]
        exact ⟨fun _ _ => ⟨fun _ _ => ⟨fun _ _ => trivial, fun _ _ => trivial⟩,
          fun _ _ => trivial⟩, fun _ _ => trivial⟩

theorem tryRules_logs (hE : p.LogsNested tokens expand) (rest : List (Nat × Rule π))
    (h : p.Logs tokens (outcome.Pends nt) run run') :
    (p.tryRules tokens expand nt i rules outcome rest).Ensures run'
      (fun o => p.Logs tokens (o.Pends nt) run) fun _ => True := by
  induction rest generalizing outcome run' with
  | nil => exact h
  | cons kr rest ih =>
    rw [tryRules, ensures_bind]
    exact (tryRule_logs hE h).mono (fun o run'' h' => ih h') fun _ h => h

theorem conclude_logs {run₀ run₁ : Run π} {s : Store π} (hrules : p.grammar.rules nt = .ok rules)
    (hc : p.Considered tokens i s ((List.range rules.length).zip rules) outcome run.store)
    (h : p.Logs tokens (outcome.Pends nt) run₁ run)
    (h₁ : run₁.events = .enter nt i :: run₀.events) :
    (conclude nt i rules outcome).Ensures run (fun _ => p.Logs tokens (fun _ => False) run₀)
      fun _ => True := by
  unfold conclude
  split
  · rename_i m ho
    simp only [ensures_bind, ensures_moveTo, ensures_pure]
    have hm := hc.onlyMatch hrules ho
    apply Logs.close (h.trans (.of_eq rfl)) h₁ (fun k hk => absurd hm hk.not_onlyMatch)
    rintro henter e ⟨m', v, hm', rfl⟩
    obtain rfl := Option.some.inj (ho.symm.trans hm')
    exact ⟨i, henter, .inl hm⟩
  · rename_i k ho hk
    have hf := (hc.fallsBack hrules ho).mpr hk
    have hpends {e : Event} (h : outcome.Pends nt e) : False := by
      obtain ⟨m, _, hm, -⟩ := h
      cases hm.symm.trans ho
    obtain ⟨r, hr, -⟩ := hf.rule
    rw [Grammar.rule?_eq_getElem? hrules] at hr
    simp only [ensures_bind, ensures_moveTo, hr, reduce, ensures_onEffect, ensures_record,
      ensures_pure]
    refine ⟨fun v s _ => ?_, fun _ _ _ => trivial⟩
    obtain ⟨new, hnew, _⟩ := id h
    refine Logs.close (h.trans (.of_cons (e := .reduce nt k v) rfl (.inr ?_))) h₁ ?_
      fun _ e he => (hpends he).elim
    · exact ⟨i, by simp [hnew, h₁], .inr hf⟩
    · intro k' hk'
      obtain rfl := hf.eq_of_chooses (.inr hk')
      exact ⟨v, List.mem_cons_self⟩
  · rename_i ho hk
    simp only [ensures_bind, ensures_moveTo, ensures_pure]
    refine Logs.close (h.trans (.of_eq rfl)) h₁ ?_ ?_
    · intro k hf
      cases ((hc.fallsBack hrules ho).mp hf).symm.trans hk
    · rintro - e ⟨m, _, hm, -⟩
      cases hm.symm.trans ho

theorem logsNested_expand (p : Parser π τ) (tokens : Array τ) (room : Nat) :
    p.LogsNested tokens (p.expand tokens room) := by
  induction room with
  | zero =>
    intro nt run
    unfold expand
    rw [ensures_bind]
    exact ensures_burn trivial fun _ _ => trivial
  | succ room ih =>
    intro nt run
    unfold expand
    simp only [ensures_bind]
    refine ensures_burn ?_ fun _ _ => trivial
    simp only [ensures_cursor, ensures_record, ensures_ofLookup]
    refine ⟨fun rules hrules => ?_, fun _ _ => trivial⟩
    have hr : ∀ kr ∈ (List.range rules.length).zip rules,
        p.grammar.rule? nt kr.1 = some kr.2 := fun _ => (mem_numbered_iff hrules).mp
    refine ((tryRules_ensures (expands_expand p tokens room) hrules _ hr (pairwise_range_zip rules)
      considered_nil).and (tryRules_logs ih _ (.of_eq rfl))).mono (fun outcome run' h => ?_)
      fun _ _ => trivial
    refine (conclude_logs hrules h.1 h.2 rfl).mono (fun result run'' h' => ?_) fun _ _ => trivial
    exact Logs.trans h' (.of_cons rfl (.inr trivial))

variable {s t : Store π} {v : Value} {events : List Event}

theorem run_tells (h : p.run tokens s = ((.ok v, events), t)) :
    ∀ e ∈ events, e.Tells p.grammar tokens.toList events := by
  have hlogs : (p.parseTokens tokens).Ensures ⟨0, 0, 0, s, []⟩
      (fun _ => p.Logs tokens (fun _ => False) ⟨0, 0, 0, s, []⟩) fun _ => True := by
    unfold parseTokens
    rw [ensures_bind]
    refine (logsNested_expand p tokens _ _ _).mono (fun result run h => ?_) fun _ _ => trivial
    cases result with
    | none => simp only [ensures_bind, ensures_get, ensures_throw]
    | some v =>
      simp only [ensures_bind, ensures_get]
      split
      · trivial
      · exact h
  obtain ⟨final, hf, rfl, -⟩ := exists_of_run h
  obtain ⟨new, hnew, hall⟩ := hlogs.of_ok hf
  rw [List.append_nil] at hnew
  intro e he
  rw [List.mem_reverse, hnew] at he
  refine ((hall e he).resolve_left id).mono fun e' he' => List.mem_reverse.mpr he'

/-- Where two rules have the same symbols, a parse that succeeds has used one of them only if it is
the last that is the empty string alone, and where the nonterminal has no other match. There it
is used without fail. -/
theorem run_twins (h : p.run tokens s = ((.ok v, events), t)) :
    ∃ f : Forest τ, p.grammar.Derives [.nonTerminal p.grammar.start] f ∧ f.yield = tokens.toList ∧
      p.grammar.Evaluates tokens.toList [.nonTerminal p.grammar.start] s f [v] t ∧
      ∀ {nt k k' r r'}, p.grammar.rule? nt k = some r → p.grammar.rule? nt k' = some r' → k ≠ k' →
        r.symbols = r'.symbols →
        (∀ i, (nt, k, i) ∈ f.uses 0 ↔
          (∃ j, (nt, j, i) ∈ f.uses 0) ∧ p.grammar.FallsBack tokens.toList nt k i) ∧
        ((∃ w, .reduce nt k w ∈ events) ↔
          ∃ i, .enter nt i ∈ events ∧ p.grammar.FallsBack tokens.toList nt k i) := by
  have htells := run_tells h
  obtain ⟨final, hf, -, rfl⟩ := exists_of_run h
  obtain ⟨f, hfound, hv⟩ := (parseTokens_ensures p tokens s).of_ok hf
  obtain ⟨hd, hy, hlen⟩ := hfound.derives _ _ rfl
  refine ⟨f, hd, hy.eq_of_length (by simpa using hlen.symm), hv, ?_⟩
  intro nt k k' r r' hr hr' hk hs
  constructor
  · intro i
    constructor
    · intro hu
      exact ⟨⟨k, hu⟩, (hfound.chooses _ _ rfl nt k i hu).fallsBack hr hr' hk hs⟩
    · rintro ⟨⟨j, hu⟩, hb⟩
      obtain rfl := hb.eq_of_chooses (hfound.chooses _ _ rfl nt j i hu)
      exact hu
  · constructor
    · rintro ⟨w, hw⟩
      obtain ⟨i, hi, hc⟩ := htells _ hw
      exact ⟨i, hi, hc.fallsBack hr hr' hk hs⟩
    · rintro ⟨i, hi, hb⟩
      exact htells _ hi k hb

/-- A nonterminal with two rules that are the empty string alone. -/
def empties : Parser Unit GrammarText.Token where
  grammar :=
    { terminals := #[⟨emptyStringName, none⟩]
      nonTerminals := #[⟨"S",
        [⟨[.terminal ⟨0⟩], [.constant (.int 1)]⟩, ⟨[.terminal ⟨0⟩], [.constant (.int 2)]⟩]⟩]
      start := ⟨0⟩ }
  limits := .standard
  isChecked := by cbv

theorem empties_run :
    empties.run #[] ⟨#[]⟩ =
      ((.ok (.int 2), [.enter ⟨0⟩ 0, .reduce ⟨0⟩ 1 (.int 2), .exit ⟨0⟩ true 0]), ⟨#[]⟩) := by
  cbv

/-- The second of the two rules is used where the other one matches as well. -/
theorem run_twins_empties :
    ∃ i, .enter ⟨0⟩ i ∈ [Event.enter ⟨0⟩ 0, .reduce ⟨0⟩ 1 (.int 2), .exit ⟨0⟩ true 0] ∧
      empties.grammar.FallsBack [] ⟨0⟩ 1 i := by
  obtain ⟨f, -, -, -, h⟩ := run_twins empties_run
  have hr : empties.grammar.rule? ⟨0⟩ 1 = some ⟨[.terminal ⟨0⟩], [.constant (.int 2)]⟩ := rfl
  have hr' : empties.grammar.rule? ⟨0⟩ 0 = some ⟨[.terminal ⟨0⟩], [.constant (.int 1)]⟩ := rfl
  exact (h hr hr' (by decide) rfl).2.mp ⟨.int 2, by simp⟩

theorem empties_uses {ss : List Symbol} {f : Forest GrammarText.Token} {vs : List Value}
    {s t : Store Unit} (h : empties.grammar.Evaluates [] ss s f vs t)
    (hss : ss = [.nonTerminal ⟨0⟩]) (hvs : vs = [.int 2]) : (⟨0⟩, 1, 0) ∈ f.uses 0 := by
  induction h with
  | nil | empty | token => cases hss
  | @node nt k r results v _ _ _ _ _ _ _ _ hr _ hact =>
    cases hss
    cases hvs
    match k, hr with
    | 0, hr =>
      cases hr
      cases hact
    | 1, _ => exact List.mem_cons_self
    | k + 2, hr => cases hr
  | abandon _ _ _ ih => exact ih hss hvs

/-- Two rules with the same symbols are resolved without an error, and one of them is used. -/
theorem empties_silent :
    ¬ ∀ (p : Parser Unit GrammarText.Token) tokens s v events t nt k k' r r',
      p.run tokens s = ((.ok v, events), t) → p.grammar.rule? nt k = some r →
      p.grammar.rule? nt k' = some r' → k ≠ k' → r.symbols = r'.symbols →
      ∃ f : Forest GrammarText.Token, p.grammar.Derives [.nonTerminal p.grammar.start] f ∧
        f.yield = tokens.toList ∧
        p.grammar.Evaluates tokens.toList [.nonTerminal p.grammar.start] s f [v] t ∧
        ∀ i, (nt, k, i) ∉ f.uses 0 := by
  intro h
  obtain ⟨f, -, -, hv, hunused⟩ :=
    h empties #[] ⟨#[]⟩ _ _ _ ⟨0⟩ 1 0 _ _ empties_run rfl rfl (by decide) rfl
  exact hunused 0 (empties_uses hv rfl rfl)

end Parser

end ActionGrammar
