import ActionGrammar.Proofs.Parse.Soundness
import ActionGrammar.Proofs.Parse.Traversal

/-! # Traces show derivations

The events of a parse that gives an answer are nested calls. If some of the
tokens match, what a replay keeps of the events is the traversal of a derivation
of these tokens, and the last reduction has the value of the parse.
-/

namespace ActionGrammar

open Attempt

variable {π τ : Type}

namespace Parser

open Parsing Grammar

/-- In an expansion, a replay of the events from one state to the other keeps some of them. -/
def Replays (nt : NonTerminal) (i : Nat) (run run' : Run π) (kept : List Event) : Prop :=
  ∃ es, run'.events = es.reverse ++ run.events ∧
    ∀ p : Replay, p.IsInExpansion nt i → p.run es = some (p.keep kept)

def Outcome.EndsIn (nt : NonTerminal) (outcome : Outcome) (kept : List Event) : Prop :=
  match outcome.matched with
  | none => kept = []
  | some m => ∃ front, kept = front ++ [.reduce nt m.rule m.value]

variable {nt : NonTerminal} {i k : Nat} {run run' run'' : Run π} {kept kept' : List Event}

theorem Replays.refl : Replays nt i run run [] := ⟨[], rfl, by simp⟩

theorem Replays.trans (h : Replays nt i run run' kept) (h' : Replays nt i run' run'' kept') :
    Replays nt i run run'' (kept ++ kept') := by
  obtain ⟨es, hes, hrun⟩ := h
  obtain ⟨es', hes', hrun'⟩ := h'
  refine ⟨es ++ es', by simp [hes, hes'], fun p hp => ?_⟩
  simp [hrun p hp, hrun' _ (hp.keep kept)]

variable [Token τ] [TokenValue π τ] {p : Parser π τ} {tokens : Array τ} {r : Rule π}
  {rules : List (Rule π)} {outcome : Outcome} {expand : NonTerminal → Parsing π (Option Value)}

theorem tryRule_replays (hE : p.RecordsNested tokens expand) :
    (p.tryRule tokens expand nt i rules outcome k r).Ensures run (fun outcome' run' =>
      ∃ kept, Replays nt i run run' kept ∧
        ∀ before, outcome.EndsIn nt before → outcome'.EndsIn nt (before ++ kept))
      fun _ => True := by
  unfold tryRule
  split
  · exact ⟨[], .refl, fun before h => by simpa [Outcome.EndsIn] using h⟩
  · simp only [ensures_bind, ensures_moveTo, ensures_record]
    refine (matchSymbols_records hE r.symbols _).mono (fun result run' h => ?_) fun _ h => h
    obtain ⟨es, hes, hrun⟩ := h
    obtain ⟨kept, -, hkept⟩ := hes.replay
    have hattempt (q : Replay) := hkept _ (q.isInRule_enter nt k i (.attempt nt k i))
    cases result with
    | none =>
      simp only [ensures_bind, ensures_record, ensures_pure]
      refine ⟨[], ⟨.attempt nt k i :: (es ++ [.backtrack nt k i]), by simp [hrun],
        fun q hq => ?_⟩, fun before h => by simpa using h⟩
      simp [hq.attempt, hattempt, Replay.step_backtrack]
    | some results =>
      simp only [reduce, ensures_bind, ensures_onEffect, ensures_record, ensures_pure]
      refine ⟨fun v s _ => ?_, fun _ _ _ => trivial⟩
      cases ho : outcome.matched with
      | none =>
        simp only [ensures_bind, ensures_cursor, ensures_pure]
        refine ⟨.attempt nt k i :: (kept ++ [.reduce nt k v]),
          ⟨.attempt nt k i :: (es ++ [.reduce nt k v]), by simp [hrun], fun q hq => ?_⟩,
          fun before _ => ⟨before ++ .attempt nt k i :: kept, by simp⟩⟩
        simp [hq.attempt, hattempt, Replay.step_reduce]
      | some earlier =>
        simp only [ensures_bind, ensures_ofLookup, ensures_throw]
        exact ⟨fun _ _ => ⟨fun _ _ => ⟨fun _ _ => trivial, fun _ _ => trivial⟩,
          fun _ _ => trivial⟩, fun _ _ => trivial⟩

theorem tryRules_replays (hE : p.RecordsNested tokens expand) (rest : List (Nat × Rule π)) :
    (p.tryRules tokens expand nt i rules outcome rest).Ensures run (fun outcome' run' =>
      ∃ kept, Replays nt i run run' kept ∧
        ∀ before, outcome.EndsIn nt before → outcome'.EndsIn nt (before ++ kept))
      fun _ => True := by
  induction rest generalizing outcome run with
  | nil => exact ⟨[], .refl, fun before h => by simpa using h⟩
  | cons kr rest ih =>
    rw [tryRules, ensures_bind]
    refine (tryRule_replays hE).mono (fun outcome₁ run₁ h => ?_) fun _ h => h
    obtain ⟨kept, hkept, hends⟩ := h
    refine ih.mono (fun outcome₂ run₂ h => ?_) fun _ h => h
    obtain ⟨kept', hkept', hends'⟩ := h
    refine ⟨kept ++ kept', hkept.trans hkept', fun before h => ?_⟩
    rw [← List.append_assoc]
    exact hends' _ (hends _ h)

omit [Token τ] [TokenValue π τ] in
theorem conclude_replays (h : outcome.EndsIn nt kept) :
    (conclude nt i rules outcome).Ensures run (fun result run' => ∀ v, result = some v →
      ∃ kept', Replays nt i run run' kept' ∧
        ∃ front k, kept ++ kept' = front ++ [.reduce nt k v]) fun _ => True := by
  unfold conclude
  split
  · rename_i m ho
    simp only [Outcome.EndsIn, ho] at h
    obtain ⟨front, hfront⟩ := h
    simp only [ensures_bind, ensures_moveTo, ensures_pure]
    rintro _ ⟨⟩
    exact ⟨[], .refl, front, m.rule, by simpa using hfront⟩
  · rename_i k ho hk
    simp only [ensures_bind, ensures_moveTo]
    split
    · simp only [reduce, ensures_bind, ensures_onEffect, ensures_record, ensures_pure]
      refine ⟨fun v s _ => ?_, fun _ _ _ => trivial⟩
      rintro _ ⟨⟩
      exact ⟨[.reduce nt k v], ⟨[.reduce nt k v], rfl, fun q hq => by simp [hq.reduce]⟩,
        kept, k, rfl⟩
    · rintro _ ⟨⟩
  · simp only [ensures_bind, ensures_moveTo, ensures_pure]
    rintro _ ⟨⟩

theorem expand_replays (p : Parser π τ) (tokens : Array τ) (room : Nat) (nt : NonTerminal)
    (run : Run π) :
    (p.expand tokens room nt).Ensures run (fun result run' => ∀ v, result = some v →
      ∃ es, run'.events = es.reverse ++ run.events ∧
        ∀ kept, Replay.empty.run es = some ⟨kept, []⟩ →
          (kept.filterMap Event.value?).getLast? = some v) fun _ => True := by
  cases room with
  | zero =>
    unfold expand
    rw [ensures_bind]
    exact ensures_burn trivial fun _ _ => trivial
  | succ room =>
    unfold expand
    simp only [ensures_bind]
    refine ensures_burn ?_ fun _ _ => trivial
    simp only [ensures_cursor, ensures_record, ensures_ofLookup]
    refine ⟨fun rules _ => ?_, fun _ _ => trivial⟩
    refine (tryRules_replays (recordsNested_expand p tokens room) _).mono
      (fun outcome run₁ h => ?_) fun _ _ => trivial
    obtain ⟨kept, hkept, hends⟩ := h
    refine (conclude_replays (hends [] rfl)).mono (fun result run₂ h => ?_) fun _ _ => trivial
    rintro v rfl
    obtain ⟨kept', hkept', front, k, hlast⟩ := h v rfl
    obtain ⟨es, hes, hrun⟩ := hkept.trans hkept'
    -- The transcript leaves values open, so the last one is read off the run itself.
    refine ⟨.enter nt run.cursor :: (es ++ [.exit nt true run₂.cursor]), by simp [hes],
      fun all hall => ?_⟩
    have hinside := hrun _ (Replay.empty.isInExpansion_enter nt run.cursor (.enter nt run.cursor))
    rw [Replay.run_cons, Replay.isInRule_empty.enter, Option.bind_some, Replay.run_append, hinside,
      Option.bind_some, Replay.run_cons] at hall
    obtain ⟨q, hexit, hall⟩ := Option.bind_eq_some_iff.mp hall
    obtain rfl := Replay.eq_of_step_exit hexit
    obtain rfl : _ = all := congrArg Replay.kept (Option.some.inj hall)
    rw [List.nil_append] at hlast
    simp [Replay.empty, Replay.keep, hlast, List.filterMap_cons, Event.value?]

variable {s t : Store π} {result : Except ParseError Value} {events : List Event}

theorem parseTokens_replays (p : Parser π τ) (tokens : Array τ) (s : Store π) :
    (p.parseTokens tokens).Ensures ⟨0, 0, 0, s, []⟩ (fun v run =>
      ∀ kept, Replay.empty.run run.events.reverse = some ⟨kept, []⟩ →
        (kept.filterMap Event.value?).getLast? = some v) fun _ => True := by
  unfold parseTokens
  rw [ensures_bind]
  refine (expand_replays p tokens _ _ _).mono (fun result run h => ?_) fun _ h => h
  cases result with
  | none =>
    simp only [ensures_bind, ensures_get, ensures_throw]
  | some v =>
    simp only [ensures_bind, ensures_get]
    split
    · trivial
    · obtain ⟨es, hes, hvalue⟩ := h v rfl
      rwa [ensures_pure, hes, List.append_nil, List.reverse_reverse]

/-- The events of a parse that gives an answer are calls in each other: a nonterminal is left that
was entered last, not before the position where it was entered, and there if it does not match, and
an attempt ends in a reduction of its rule or goes back. So a trace ends at the depth that it begins
at. If the answer is not that nothing matches, what remains without the attempts that go back is the
traversal of a derivation of the tokens before the final cursor, and its last reduction has the
value of the parse. -/
theorem run_replays (h : p.run tokens s = ((result, events), t)) (ha : IsAnswer result) :
    ∃ final kept, (p.parseTokens tokens).runFrom ⟨0, 0, 0, s, []⟩ = (result, final) ∧
      Replay.empty.run events = some ⟨kept, []⟩ ∧
      (∀ (trace : Trace.Printer π τ) (page : Trace.Page),
        (events.foldl trace.step page).depth = page.depth ∧
        ∀ before nt m j after, events = before ++ .exit nt m j :: after →
          1 ≤ (before.foldl trace.step page).depth) ∧
      ((∀ m, result ≠ .error (.notGenerated m)) → ∃ f,
        p.grammar.Derives [.nonTerminal p.grammar.start] f ∧
        f.yield = tokens.toList.take final.cursor ∧ f.Traversal 0 kept ∧
        kept.filterMap Event.shift? = List.range final.cursor ∧
        kept.filterMap Event.reduced? = f.postorder ∧
        ∀ v, result = .ok v → (kept.filterMap Event.value?).getLast? = some v) := by
  obtain ⟨final, hf, rfl, -⟩ := exists_of_run h
  obtain ⟨o, htranscript, ho⟩ := parseTokens_transcript hf ha
  obtain ⟨kept, hremains, hkept⟩ := htranscript.replay
  have hrun : Replay.empty.run final.events.reverse = some ⟨kept, []⟩ :=
    hkept _ Replay.isInRule_empty
  refine ⟨final, kept, hf, hrun, fun trace page => ⟨?_, ?_⟩, fun hn => ?_⟩
  · exact trace.depth_foldl hrun (Nat.add_zero _).symm
  · intro before nt m j after hevents
    rw [hevents] at hrun
    exact trace.depth_pos_of_exit hrun (Nat.add_zero _).symm
  · obtain ⟨f, htour⟩ := hremains _ (ho hn)
    have hstop : final.cursor = f.yield.length := by simpa using htour.stop
    refine ⟨f, htour.derives, ?_, htour.traversal, ?_, htour.traversal.reductions, ?_⟩
    · rw [hstop]
      exact List.prefix_iff_eq_take.mp htour.yield
    · rw [htour.traversal.shifts, hstop, List.range_eq_range']
    · rintro v rfl
      exact (parseTokens_replays p tokens s).of_ok hf _ hrun

def emptyListEvents (list : Nat) : List Event :=
  [.enter ⟨0⟩ 1, .attempt ⟨0⟩ 0 1, .mismatch ⟨1⟩ 1, .backtrack ⟨0⟩ 0 1, .attempt ⟨0⟩ 1 1,
    .mismatch ⟨1⟩ 1, .backtrack ⟨0⟩ 1 1, .reduce ⟨0⟩ 2 (.object ⟨list, ⟨"list"⟩⟩),
    .exit ⟨0⟩ true 1]

def listEvents : List Event :=
  .enter ⟨0⟩ 0 :: .attempt ⟨0⟩ 0 0 :: .shift ⟨1⟩ 0 :: (emptyListEvents 0 ++
    .mismatch ⟨2⟩ 1 :: .backtrack ⟨0⟩ 0 0 :: .attempt ⟨0⟩ 1 0 :: .shift ⟨1⟩ 0 ::
      (emptyListEvents 1 ++ [.reduce ⟨0⟩ 1 (.object ⟨2, ⟨"list"⟩⟩), .exit ⟨0⟩ true 1]))

def listKept : List Event :=
  [.enter ⟨0⟩ 0, .attempt ⟨0⟩ 1 0, .shift ⟨1⟩ 0, .enter ⟨0⟩ 1,
    .reduce ⟨0⟩ 2 (.object ⟨1, ⟨"list"⟩⟩), .exit ⟨0⟩ true 1,
    .reduce ⟨0⟩ 1 (.object ⟨2, ⟨"list"⟩⟩), .exit ⟨0⟩ true 1]

/-- The list that is abandoned is reduced within an attempt that goes back, so it is forgotten. -/
theorem run_replays_lists : ∃ t,
    lists.run #[⟨.int, 0, 1, some (.int 1)⟩] ⟨#[]⟩ =
      ((.ok (.object ⟨2, ⟨"list"⟩⟩), listEvents), t) ∧
    Replay.empty.run listEvents = some ⟨listKept, []⟩ ∧
    ∃ f : Forest GrammarText.Token, lists.grammar.Derives [.nonTerminal ⟨0⟩] f ∧
      f.Traversal 0 listKept ∧ f.postorder = [(⟨0⟩, 2), (⟨0⟩, 1)] := by
  have h : lists.run #[⟨.int, 0, 1, some (.int 1)⟩] ⟨#[]⟩ =
      ((.ok (.object ⟨2, ⟨"list"⟩⟩), listEvents),
        ⟨#[[], [], [.int 1, .object ⟨1, ⟨"list"⟩⟩]]⟩) := by
    cbv
  have hkept : Replay.empty.run listEvents = some ⟨listKept, []⟩ := rfl
  obtain ⟨final, kept, -, hrun, -, htree⟩ := run_replays h .value
  obtain ⟨rfl, -⟩ := Replay.mk.inj (Option.some.inj (hkept.symm.trans hrun))
  obtain ⟨f, hd, -, ht, -, hpost, -⟩ := htree (by simp)
  exact ⟨_, h, hkept, f, hd, ht, hpost.symm⟩

end Parser

end ActionGrammar
