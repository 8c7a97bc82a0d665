import ActionGrammar.Proofs.Parse.Transcript

/-! # Parses have transcripts

A parse that goes on without an error records the events of a transcript, and
so does a parse of all tokens that gives an answer.
-/

namespace ActionGrammar

open Attempt

inductive IsAnswer : Except ParseError Value → Prop
  | value {v : Value} : IsAnswer (.ok v)
  | notGenerated {m : Nat} : IsAnswer (.error (.notGenerated m))
  | trailingTokens {i m : Nat} : IsAnswer (.error (.trailingTokens i m))

namespace Parser

open Parsing Grammar

variable {π τ : Type} [Token τ] [TokenValue π τ] {p : Parser π τ} {tokens : Array τ}
  {run run' run'' : Run π}

/-- From one state to the other, the events of a task from the position were recorded. -/
def Records (p : Parser π τ) (tokens : Array τ) (task : Task π) (i : Nat) (o : Option Nat)
    (run run' : Run π) : Prop :=
  ∃ es, p.grammar.Transcript tokens.toList task i o es ∧ run'.events = es.reverse ++ run.events

/-- From the state on, the events of a task were recorded that matches up to the cursor, unless
there is no result. -/
def Recorded {α : Type} (p : Parser π τ) (tokens : Array τ) (task : Task π) (run : Run π)
    (result : Option α) (run' : Run π) : Prop :=
  p.Records tokens task run.cursor (result.map fun _ => run'.cursor) run run'

theorem matchTerminal_records {id : Terminal.Id} (hid : id ≠ ⟨0⟩) :
    (p.matchTerminal tokens id).Ensures run (p.Recorded tokens (.symbol (.terminal id)) run)
      fun _ => True := by
  have hmiss (h : ∀ x, tokens[run.cursor]? = some x → ¬ p.grammar.Matches id x) (run' : Run π)
      (he : run'.events = .mismatch id run.cursor :: run.events) :
      p.Records tokens (.symbol (.terminal id)) run.cursor none run run' :=
    ⟨_, .mismatch hid (by simpa using h), he⟩
  unfold matchTerminal
  simp only [ensures_bind]
  refine ensures_burn ?_ fun _ _ => trivial
  rw [ensures_ofLookup]
  refine ⟨fun terminal ht => ?_, fun _ _ => trivial⟩
  simp only [ensures_cursor, ensures_modify]
  split
  · rename_i x hx
    split
    · rename_i hm
      exact ⟨_, .shift (by simpa using hx) ⟨hid, terminal, ht, hm⟩, rfl⟩
    · rename_i hm
      refine hmiss (fun y hy hmy => hm ?_) _ rfl
      obtain ⟨-, terminal', ht', hmy⟩ := hmy
      obtain rfl := Except.ok.inj (ht.symm.trans ht')
      rwa [Option.some.inj (hx.symm.trans hy)]
  · rename_i hx
    exact hmiss (fun y hy => absurd (hy.symm.trans hx) (Option.some_ne_none y)) _ rfl

def RecordsNested (p : Parser π τ) (tokens : Array τ)
    (expand : NonTerminal → Parsing π (Option Value)) : Prop :=
  ∀ nt run, (expand nt).Ensures run (p.Recorded tokens (.symbol (.nonTerminal nt)) run)
    fun _ => True

variable {expand : NonTerminal → Parsing π (Option Value)}

theorem matchSymbol_records (hE : p.RecordsNested tokens expand) (s : Symbol) :
    (p.matchSymbol tokens expand s).Ensures run (p.Recorded tokens (.symbol s) run)
      fun _ => True := by
  cases s with
  | terminal id =>
    by_cases hid : id = ⟨0⟩
    · subst hid
      exact ⟨[], .empty, rfl⟩
    · rw [matchSymbol, if_neg (by simpa [Symbol.isEmptyString] using hid)]
      exact matchTerminal_records hid
  | nonTerminal nt => exact hE nt run

theorem matchSymbols_records (hE : p.RecordsNested tokens expand) (ss : List Symbol)
    (run : Run π) :
    (p.matchSymbols tokens expand ss).Ensures run (p.Recorded tokens (.symbols ss) run)
      fun _ => True := by
  induction ss generalizing run with
  | nil => exact ⟨[], .nil, rfl⟩
  | cons s ss ih =>
    rw [matchSymbols_cons, ensures_bind]
    refine (matchSymbol_records hE s).mono (fun result run' h => ?_) fun _ h => h
    obtain ⟨es, hes, hrun⟩ := h
    cases result with
    | none => exact ⟨es, .stop hes, hrun⟩
    | some v =>
      simp only [ensures_bind, ensures_pure]
      refine (ih run').mono (fun results run'' h => ?_) fun _ h => h
      obtain ⟨es', hes', hrun'⟩ := h
      refine ⟨es ++ es', .cons hes ?_, by simp [hrun, hrun']⟩
      cases results <;> exact hes'

variable {nt : NonTerminal} {i k : Nat} {r : Rule π} {rules : List (Rule π)} {outcome : Outcome}

def Outcome.stop? (outcome : Outcome) : Option Nat := outcome.matched.map Match.stop

theorem tryRule_records (hE : p.RecordsNested tokens expand) :
    (p.tryRule tokens expand nt i rules outcome k r).Ensures run (fun outcome' run' =>
      ∃ o es, run'.events = es.reverse ++ run.events ∧ outcome'.stop? = outcome.stop?.or o ∧
        (outcome.stop? = none ∨ o = none) ∧
        ∀ rest o' es', p.grammar.Transcript tokens.toList (.rules nt rest) i o' es' →
          o = none ∨ o' = none →
          p.grammar.Transcript tokens.toList (.rules nt ((k, r) :: rest)) i (o.or o') (es ++ es'))
      fun _ => True := by
  unfold tryRule
  split
  · rename_i he
    refine ⟨none, [], rfl, by simp [Outcome.stop?], .inr rfl, fun rest o' es' h _ => ?_⟩
    exact .skip he h
  · rename_i he
    rw [Bool.not_eq_true] at he
    simp only [ensures_bind, ensures_moveTo, ensures_record]
    refine (matchSymbols_records hE r.symbols _).mono (fun result run' h => ?_) fun _ h => h
    obtain ⟨es, hes, hrun⟩ := h
    cases result with
    | none =>
      simp only [ensures_bind, ensures_record, ensures_pure]
      refine ⟨none, .attempt nt k i :: (es ++ [.backtrack nt k i]), by simp [hrun], by simp,
        .inr rfl, fun rest o' es' h hnone => ?_⟩
      simpa using Transcript.attempt he hes .backtrack h hnone
    | some results =>
      simp only [reduce, ensures_bind, ensures_onEffect, ensures_record, ensures_pure]
      refine ⟨fun v s _ => ?_, fun _ _ _ => trivial⟩
      cases ho : outcome.matched with
      | none =>
        simp only [ensures_bind, ensures_cursor, ensures_pure]
        refine ⟨some run'.cursor, .attempt nt k i :: (es ++ [.reduce nt k v]), by simp [hrun],
          by simp [Outcome.stop?, ho], .inl (by simp [Outcome.stop?, ho]),
          fun rest o' es' h hnone => ?_⟩
        simpa using Transcript.attempt he hes .reduce h hnone
      | some earlier =>
        simp only [ensures_bind, ensures_ofLookup, ensures_throw]
        exact ⟨fun _ _ => ⟨fun _ _ => ⟨fun _ _ => trivial, fun _ _ => trivial⟩,
          fun _ _ => trivial⟩, fun _ _ => trivial⟩

theorem tryRules_records (hE : p.RecordsNested tokens expand) (rest : List (Nat × Rule π)) :
    (p.tryRules tokens expand nt i rules outcome rest).Ensures run (fun outcome' run' =>
      ∃ o, p.Records tokens (.rules nt rest) i o run run' ∧
        outcome'.stop? = outcome.stop?.or o ∧ (outcome.stop? = none ∨ o = none))
      fun _ => True := by
  induction rest generalizing outcome run with
  | nil => exact ⟨none, ⟨[], .done, rfl⟩, by simp, .inr rfl⟩
  | cons kr rest ih =>
    rw [tryRules, ensures_bind]
    refine (tryRule_records hE).mono (fun outcome₁ run₁ h => ?_) fun _ h => h
    obtain ⟨o, es, hrun, ho, hone, hes⟩ := h
    refine ih.mono (fun outcome₂ run₂ h => ?_) fun _ h => h
    obtain ⟨o', ⟨es', hes', hrun'⟩, ho', hone'⟩ := h
    rw [ho, Option.or_eq_none_iff] at hone'
    refine ⟨o.or o', ⟨es ++ es', hes rest o' es' hes' ?_, by simp [hrun, hrun']⟩, ?_, ?_⟩
    · exact hone'.imp_left And.right
    · rw [ho', ho, Option.or_assoc]
    · rw [Option.or_eq_none_iff]
      tauto

omit [Token τ] [TokenValue π τ] in
theorem conclude_records
    (hε : EpsilonAmong ((List.range rules.length).zip rules) outcome.epsilon) :
    (conclude nt i rules outcome).Ensures run (fun result run' =>
      ∃ es, Event.Concludes nt i ((List.range rules.length).zip rules) outcome.stop?
          (result.map fun _ => run'.cursor) (es ++ [.exit nt result.isSome run'.cursor]) ∧
        run'.events = es.reverse ++ run.events) fun _ => True := by
  unfold conclude Outcome.stop?
  split
  · rename_i m ho
    simp only [ensures_bind, ensures_moveTo, ensures_pure, ho]
    exact ⟨[], .matched, rfl⟩
  · rename_i k ho hk
    rw [hk] at hε
    obtain ⟨r, hr, -⟩ := hε.1
    have hr' : rules[k]? = some r := mem_range_zip.mp hr
    simp only [ensures_bind, ensures_moveTo, hr', reduce, ensures_onEffect, ensures_record,
      ensures_pure, ho]
    exact ⟨fun v s _ => ⟨[.reduce nt k v], .epsilon hε, rfl⟩, fun _ _ _ => trivial⟩
  · rename_i ho hk
    rw [hk] at hε
    simp only [ensures_bind, ensures_moveTo, ensures_pure, ho]
    exact ⟨[], .fail hε, rfl⟩

theorem recordsNested_expand (p : Parser π τ) (tokens : Array τ) (room : Nat) :
    p.RecordsNested tokens (p.expand tokens room) := by
  induction room with
  | zero =>
    intro nt run
    unfold expand
    rw [ensures_bind]
    exact ensures_burn trivial fun _ _ => trivial
  | succ room ih =>
    intro nt run
    unfold expand
    simp only [ensures_bind]
    refine ensures_burn ?_ fun _ _ => trivial
    simp only [ensures_cursor, ensures_record, ensures_ofLookup]
    refine ⟨fun rules hrules => ?_, fun _ _ => trivial⟩
    have hr : ∀ kr ∈ (List.range rules.length).zip rules,
        p.grammar.rule? nt kr.1 = some kr.2 := fun _ => (mem_numbered_iff hrules).mp
    refine ((tryRules_ensures (expands_expand p tokens room) hrules _ hr (pairwise_range_zip rules)
      considered_nil).and (tryRules_records ih _)).mono (fun outcome run₁ h => ?_)
      fun _ _ => trivial
    obtain ⟨hconsidered, o, ⟨es, hes, hrun⟩, ho, -⟩ := h
    refine (conclude_records hconsidered.epsilon).mono (fun result run₂ h => ?_)
      fun _ _ => trivial
    obtain ⟨es', hc, hrun'⟩ := h
    rw [ho] at hc
    exact ⟨_, .expand hrules hes hc, by simp [hrun, hrun']⟩

variable {s t : Store π} {result : Except ParseError Value} {events : List Event}

theorem parseTokens_records (p : Parser π τ) (tokens : Array τ) (s : Store π) :
    (p.parseTokens tokens).Ends ⟨0, 0, 0, s, []⟩
      (fun _ run => p.Records tokens (.symbol (.nonTerminal p.grammar.start)) 0 (some run.cursor)
        ⟨0, 0, 0, s, []⟩ run)
      (fun e run => IsAnswer (.error e) → ∃ o, p.Records tokens
        (.symbol (.nonTerminal p.grammar.start)) 0 o ⟨0, 0, 0, s, []⟩ run ∧
        ((∀ m, e ≠ .notGenerated m) → o = some run.cursor)) := by
  unfold parseTokens
  rw [ends_bind]
  refine ((expands_expand p tokens _ _ _).and (recordsNested_expand p tokens _ _ _)).ends.mono
    (fun result run h => ?_) fun e run h ha => ?_
  · cases result with
    | none =>
      simp only [ends_bind, ends_get, ends_throw]
      exact fun _ => ⟨_, h.2, fun hn => absurd rfl (hn _)⟩
    | some v =>
      simp only [ends_bind, ends_get]
      split
      · exact fun _ => ⟨_, h.2, fun _ => rfl⟩
      · exact h.2
  · cases ha with
    | notGenerated => cases h.1
    | trailingTokens => cases h.1

/-- A parse that gives an answer has a transcript. It ends at the cursor, unless the answer is that
nothing matches. -/
theorem parseTokens_transcript {final : Run π}
    (h : (p.parseTokens tokens).runFrom ⟨0, 0, 0, s, []⟩ = (result, final))
    (ha : IsAnswer result) :
    ∃ o, p.grammar.Transcript tokens.toList (.symbol (.nonTerminal p.grammar.start)) 0 o
        final.events.reverse ∧
      ((∀ m, result ≠ .error (.notGenerated m)) → o = some final.cursor) := by
  have hends := parseTokens_records p tokens s
  obtain ⟨o, ⟨es, hes, hevents⟩, ho⟩ : ∃ o, p.Records tokens
      (.symbol (.nonTerminal p.grammar.start)) 0 o ⟨0, 0, 0, s, []⟩ final ∧
      ((∀ m, result ≠ .error (.notGenerated m)) → o = some final.cursor) := by
    cases result with
    | ok v => exact ⟨_, hends.of_ok h, fun _ => rfl⟩
    | error e =>
      obtain ⟨o, hrecords, ho⟩ := hends.of_error h ha
      exact ⟨o, hrecords, fun hn => ho fun m he => hn m (congrArg Except.error he)⟩
  rw [hevents, List.append_nil, List.reverse_reverse]
  exact ⟨o, hes, ho⟩

theorem run_transcript (h : p.run tokens s = ((result, events), t)) (ha : IsAnswer result) :
    ∃ o, p.grammar.Transcript tokens.toList (.symbol (.nonTerminal p.grammar.start)) 0 o
      events := by
  obtain ⟨final, hf, rfl, -⟩ := exists_of_run h
  obtain ⟨o, hes, -⟩ := parseTokens_transcript hf ha
  exact ⟨o, hes⟩

end Parser

end ActionGrammar
