import ActionGrammar.Proofs.Parse.Choice
import ActionGrammar.Proofs.Parse.Engine

/-! # What a parse visits

On its way a parse tests terminals, expands nonterminals and reduces what the
rules of these match, also where that is abandoned later. Which visits it makes
depends on what is recognized only, not on values. A parse that goes on has made
all of them: the furthest position is that of the furthest test, and all actions
have succeeded. A parse that fails in an action or by an ambiguity has been there.
-/

namespace ActionGrammar

open Attempt

inductive Visit (τ : Type) where
  | test (i : Nat)
  | expand (nt : NonTerminal) (i : Nat)
  | reduce (nt : NonTerminal) (rule : Nat) (children : Forest τ)

namespace Grammar

variable {π τ : Type} [Token τ]

inductive Visits (g : Grammar π τ) (tokens : List τ) : List Symbol → Nat → Visit τ → Prop
  | test {id : Terminal.Id} {ss : List Symbol} {i : Nat} : id ≠ ⟨0⟩ →
      Visits g tokens (.terminal id :: ss) i (.test i)
  | expand {nt : NonTerminal} {ss : List Symbol} {i : Nat} :
      Visits g tokens (.nonTerminal nt :: ss) i (.expand nt i)
  | reduce {nt : NonTerminal} {k : Nat} {r : Rule π} {c : Forest τ} {ss : List Symbol} {i j : Nat} :
      g.rule? nt k = some r → r.isEpsilon = false → g.Recognizes tokens r.symbols i (some (c, j)) →
      Visits g tokens (.nonTerminal nt :: ss) i (.reduce nt k c)
  | fallback {nt : NonTerminal} {k : Nat} {ss : List Symbol} {i : Nat} : g.FallsBack tokens nt k i →
      Visits g tokens (.nonTerminal nt :: ss) i (.reduce nt k (.empty .nil))
  | nested {nt : NonTerminal} {k : Nat} {r : Rule π} {ss : List Symbol} {i : Nat} {x : Visit τ} :
      g.rule? nt k = some r → r.isEpsilon = false → Visits g tokens r.symbols i x →
      Visits g tokens (.nonTerminal nt :: ss) i x
  | behind {s : Symbol} {f : Forest τ} {ss : List Symbol} {i j : Nat} {x : Visit τ} :
      g.Recognizes tokens [s] i (some (f, j)) → Visits g tokens ss j x →
      Visits g tokens (s :: ss) i x

/-- The action of the node succeeds on the values of its children, evaluated some time after
`s`. -/
def Reduces [TokenValue π τ] (g : Grammar π τ) (tokens : List τ) (s : Store π) (nt : NonTerminal)
    (k : Nat) (c : Forest τ) : Prop :=
  ∃ r results s' v t, g.rule? nt k = some r ∧ g.Evaluates tokens r.symbols s c results s' ∧
    (Resolved.evalAction (r.inputs results) r.action).runFrom s' = (.ok v, t)

def VisitsAll (g : Grammar π τ) (tokens : List τ) : Visit τ → Prop :=
  g.Visits tokens [.nonTerminal g.start] 0

def AllReduce [TokenValue π τ] (g : Grammar π τ) (tokens : List τ) (s : Store π) : Prop :=
  ∀ nt k c, g.VisitsAll tokens (.reduce nt k c) → g.Reduces tokens s nt k c

variable {g : Grammar π τ} {tokens : List τ} {ss : List Symbol} {s : Symbol} {i : Nat} {x : Visit τ}

@[simp] theorem not_visits_nil : ¬ g.Visits tokens [] i x := nofun

@[simp] theorem not_visits_empty : ¬ g.Visits tokens [.terminal ⟨0⟩] i x := by
  intro h
  cases h with
  | test hid => exact hid rfl
  | behind _ h => exact not_visits_nil h

theorem visits_terminal_iff {id : Terminal.Id} (hid : id ≠ ⟨0⟩) :
    g.Visits tokens [.terminal id] i x ↔ x = .test i := by
  constructor
  · intro h
    cases h with
    | test => rfl
    | behind _ h => exact absurd h not_visits_nil
  · rintro rfl
    exact .test hid

theorem Visits.append (h : g.Visits tokens ss i x) (ss' : List Symbol) :
    g.Visits tokens (ss ++ ss') i x := by
  induction h with
  | test hid => exact .test hid
  | expand => exact .expand
  | reduce hr he hc => exact .reduce hr he hc
  | fallback hf => exact .fallback hf
  | nested hr he h _ => exact .nested hr he h
  | behind hs _ ih => exact .behind hs ih

theorem visits_cons_iff : g.Visits tokens (s :: ss) i x ↔
    g.Visits tokens [s] i x ∨
      ∃ f j, g.Recognizes tokens [s] i (some (f, j)) ∧ g.Visits tokens ss j x := by
  constructor
  · intro h
    cases h with
    | test hid => exact .inl (.test hid)
    | expand => exact .inl .expand
    | reduce hr he hc => exact .inl (.reduce hr he hc)
    | fallback hf => exact .inl (.fallback hf)
    | nested hr he h => exact .inl (.nested hr he h)
    | behind hs h => exact .inr ⟨_, _, hs, h⟩
  · rintro (h | ⟨f, j, hs, h⟩)
    · exact h.append ss
    · exact .behind hs h

theorem visits_cons_of_none (h : g.Recognizes tokens [s] i none) :
    g.Visits tokens (s :: ss) i x ↔ g.Visits tokens [s] i x := by
  rw [visits_cons_iff]
  constructor
  · rintro (h' | ⟨f, j, hs, -⟩)
    · exact h'
    · exact nomatch h.unique _ hs
  · exact .inl

theorem visits_cons_of_some {f : Forest τ} {j : Nat} (h : g.Recognizes tokens [s] i (some (f, j))) :
    g.Visits tokens (s :: ss) i x ↔ g.Visits tokens [s] i x ∨ g.Visits tokens ss j x := by
  rw [visits_cons_iff]
  constructor
  · rintro (h' | ⟨f', j', hs, h'⟩)
    · exact .inl h'
    · cases h.unique _ hs
      exact .inr h'
  · rintro (h' | h')
    · exact .inl h'
    · exact .inr ⟨f, j, h, h'⟩

def VisitsRule (g : Grammar π τ) (tokens : List τ) (nt : NonTerminal) (i k : Nat) (r : Rule π)
    (x : Visit τ) : Prop :=
  r.isEpsilon = false ∧ (g.Visits tokens r.symbols i x ∨
    ∃ c j, g.Recognizes tokens r.symbols i (some (c, j)) ∧ x = .reduce nt k c)

theorem VisitsRule.visits {nt : NonTerminal} {k : Nat} {r : Rule π}
    (h : g.VisitsRule tokens nt i k r x) (hr : g.rule? nt k = some r) :
    g.Visits tokens [.nonTerminal nt] i x := by
  obtain ⟨he, h | ⟨c, j, hc, rfl⟩⟩ := h
  · exact .nested hr he h
  · exact .reduce hr he hc

theorem visitsRule_of_none {nt : NonTerminal} {k : Nat} {r : Rule π} (he : r.isEpsilon = false)
    (h : g.Recognizes tokens r.symbols i none) :
    g.VisitsRule tokens nt i k r x ↔ g.Visits tokens r.symbols i x := by
  refine ⟨?_, fun hx => ⟨he, .inl hx⟩⟩
  rintro ⟨-, hx | ⟨c, j, hc, -⟩⟩
  · exact hx
  · exact nomatch h.unique _ hc

theorem visitsRule_of_some {nt : NonTerminal} {k : Nat} {r : Rule π} {c : Forest τ} {j : Nat}
    (he : r.isEpsilon = false) (h : g.Recognizes tokens r.symbols i (some (c, j))) :
    g.VisitsRule tokens nt i k r x ↔ g.Visits tokens r.symbols i x ∨ x = .reduce nt k c := by
  constructor
  · rintro ⟨-, hx | ⟨c', j', hc, rfl⟩⟩
    · exact .inl hx
    · cases h.unique _ hc
      exact .inr rfl
  · rintro (hx | rfl)
    · exact ⟨he, .inl hx⟩
    · exact ⟨he, .inr ⟨c, j, h, rfl⟩⟩

def VisitsAmong (g : Grammar π τ) (tokens : List τ) (nt : NonTerminal) (i : Nat)
    (rules : List (Nat × Rule π)) (x : Visit τ) : Prop :=
  ∃ kr ∈ rules, g.VisitsRule tokens nt i kr.1 kr.2 x

theorem visitsAmong_append_singleton {nt : NonTerminal} {k : Nat} {r : Rule π}
    {rules : List (Nat × Rule π)} : g.VisitsAmong tokens nt i (rules ++ [(k, r)]) x ↔
      g.VisitsAmong tokens nt i rules x ∨ g.VisitsRule tokens nt i k r x := by
  simp only [VisitsAmong, List.mem_append, List.mem_singleton, or_and_right, exists_or,
    exists_eq_left]

theorem visits_nonTerminal_iff {nt : NonTerminal} (hx : x ≠ .expand nt i) :
    g.Visits tokens [.nonTerminal nt] i x ↔
      (∃ k r, g.rule? nt k = some r ∧ g.VisitsRule tokens nt i k r x) ∨
        ∃ k, g.FallsBack tokens nt k i ∧ x = .reduce nt k (.empty .nil) := by
  constructor
  · intro h
    cases h with
    | expand => exact absurd rfl hx
    | reduce hr he hc => exact .inl ⟨_, _, hr, he, .inr ⟨_, _, hc, rfl⟩⟩
    | fallback hf => exact .inr ⟨_, hf, rfl⟩
    | nested hr he h => exact .inl ⟨_, _, hr, he, .inl h⟩
    | behind _ h => exact absurd h not_visits_nil
  · rintro (⟨k, r, hr, h⟩ | ⟨k, hf, rfl⟩)
    · exact h.visits hr
    · exact .fallback hf

end Grammar

namespace Parser

open Parsing

variable {π τ : Type} [Token τ] [TokenValue π τ] {p : Parser π τ} {tokens : Array τ}
  {V V' : Visit τ → Prop} {run run' run'' : Run π} {s s' : Store π}

/-- From one state to the other, all of the visits have been made, and no further test. -/
structure Tracks (p : Parser π τ) (tokens : Array τ) (V : Visit τ → Prop) (run run' : Run π) :
    Prop where
  furthest : ∀ m, run'.furthest ≤ m ↔ run.furthest ≤ m ∧ ∀ i, V (.test i) → i ≤ m
  reduced : ∀ nt k c, V (.reduce nt k c) → p.grammar.Reduces tokens.toList run.store nt k c

theorem Tracks.refl (hV : ∀ x, V x → ∃ nt i, x = .expand nt i)
    (hf : run'.furthest = run.furthest) : p.Tracks tokens V run run' := by
  refine ⟨fun m => ?_, fun nt k c h => ?_⟩
  · rw [hf]
    refine ⟨fun hm => ⟨hm, fun i h => ?_⟩, And.left⟩
    obtain ⟨_, _, heq⟩ := hV _ h
    cases heq
  · obtain ⟨_, _, heq⟩ := hV _ h
    cases heq

theorem Tracks.reduce {nt : NonTerminal} {k : Nat} {c : Forest τ}
    (h : p.Tracks tokens V run run') (hc : p.grammar.Reduces tokens.toList run.store nt k c) :
    p.Tracks tokens (fun x => V x ∨ x = .reduce nt k c) run run' := by
  refine ⟨fun m => by simp [h.furthest], ?_⟩
  rintro _ _ _ (hV | ⟨⟨⟩⟩)
  · exact h.reduced _ _ _ hV
  · exact hc

theorem Tracks.of_eq {run₁ run₂ : Run π} (h : p.Tracks tokens V run run')
    (hf : run₁.furthest = run.furthest) (hs : run₁.store = run.store)
    (hf' : run₂.furthest = run'.furthest) : p.Tracks tokens V run₁ run₂ :=
  ⟨fun m => by rw [hf', hf, h.furthest], fun nt k c hV => hs ▸ h.reduced nt k c hV⟩

theorem Tracks.congr (h : p.Tracks tokens V run run')
    (hV : ∀ x, (∀ nt i, x ≠ .expand nt i) → (V' x ↔ V x)) : p.Tracks tokens V' run run' := by
  refine ⟨fun m => ?_, fun nt k c hV' => h.reduced nt k c ((hV _ (by simp)).mp hV')⟩
  rw [h.furthest]
  exact and_congr_right fun _ => forall_congr' fun i => by rw [hV _ (by simp)]

theorem Tracks.trans (h : p.Tracks tokens V run run') (h' : p.Tracks tokens V' run' run'')
    (ha : p.grammar.Abandons tokens.toList run.store run'.store) :
    p.Tracks tokens (fun x => V x ∨ V' x) run run'' := by
  refine ⟨fun m => ?_, fun nt k c hV => ?_⟩
  · rw [h'.furthest, h.furthest, and_assoc, ← forall_and]
    simp only [or_imp]
  · rcases hV with hV | hV
    · exact h.reduced nt k c hV
    · obtain ⟨r, results, s, v, t, hr, he, hact⟩ := h'.reduced nt k c hV
      exact ⟨r, results, s, v, t, hr, .abandon ha he, hact⟩

/-- Which visit an ambiguity or a failing action is due to. -/
def Blames (p : Parser π τ) (tokens : Array τ) (V : Visit τ → Prop) (s : Store π) :
    ParseError → Prop
  | .ambiguous name first second i => ∃ nt k k' r r' x x', V (.expand nt i) ∧ k < k' ∧
      p.grammar.rule? nt k = some r ∧ p.grammar.rule? nt k' = some r' ∧
      r.isEpsilon = false ∧ r'.isEpsilon = false ∧
      p.grammar.Recognizes tokens.toList r.symbols i (some x) ∧
      p.grammar.Recognizes tokens.toList r'.symbols i (some x') ∧
      p.grammar.nonTerminalName nt = .ok name ∧ p.grammar.production nt r = .ok first ∧
      p.grammar.production nt r' = .ok second
  | .eval cause => ∃ nt k r c results s' t, V (.reduce nt k c) ∧ p.grammar.rule? nt k = some r ∧
      p.grammar.Evaluates tokens.toList r.symbols s c results s' ∧
      (Resolved.evalAction (r.inputs results) r.action).runFrom s' = (.error cause, t)
  | _ => True

theorem Blames.mono {e : ParseError} (h : p.Blames tokens V s' e) (hV : ∀ x, V x → V' x)
    (ha : p.grammar.Abandons tokens.toList s s') : p.Blames tokens V' s e := by
  cases e with
  | ambiguous =>
    obtain ⟨nt, k, k', r, r', x, x', hx, h⟩ := h
    exact ⟨nt, k, k', r, r', x, x', hV _ hx, h⟩
  | eval =>
    obtain ⟨nt, k, r, c, results, t, u, hx, hr, he, hact⟩ := h
    exact ⟨nt, k, r, c, results, t, u, hV _ hx, hr, .abandon ha he, hact⟩
  | _ => trivial

theorem matchTerminal_tracks {id : Terminal.Id} (hid : id ≠ ⟨0⟩) :
    (p.matchTerminal tokens id).Ensures run
      (fun _ => p.Tracks tokens (p.grammar.Visits tokens.toList [.terminal id] run.cursor) run)
      (p.Blames tokens V s) := by
  have htest {run' : Run π} (hf : run'.furthest = max run.furthest run.cursor) :
      p.Tracks tokens (p.grammar.Visits tokens.toList [.terminal id] run.cursor) run run' := by
    refine ⟨fun m => ?_, fun nt k c h => ?_⟩
    · simp [Grammar.visits_terminal_iff hid, hf]
    · simp [Grammar.visits_terminal_iff hid] at h
  unfold matchTerminal
  simp only [ensures_bind]
  refine ensures_burn ?_ fun _ _ => trivial
  rw [ensures_ofLookup]
  refine ⟨fun terminal _ => ?_, fun _ _ => trivial⟩
  simp only [ensures_cursor, ensures_modify]
  split
  · split
    · exact htest rfl
    · exact htest rfl
  · exact htest rfl

def TracksNested (p : Parser π τ) (tokens : Array τ)
    (expand : NonTerminal → Parsing π (Option Value)) : Prop :=
  ∀ nt run, (expand nt).Ensures run
    (fun _ => p.Tracks tokens (p.grammar.Visits tokens.toList [.nonTerminal nt] run.cursor) run)
    (p.Blames tokens (p.grammar.Visits tokens.toList [.nonTerminal nt] run.cursor) run.store)

variable {expand : NonTerminal → Parsing π (Option Value)}

theorem matchSymbol_tracks (hT : p.TracksNested tokens expand) (sym : Symbol) :
    (p.matchSymbol tokens expand sym).Ensures run
      (fun _ => p.Tracks tokens (p.grammar.Visits tokens.toList [sym] run.cursor) run)
      (p.Blames tokens (p.grammar.Visits tokens.toList [sym] run.cursor) run.store) := by
  cases sym with
  | terminal id =>
    by_cases hid : id = ⟨0⟩
    · subst hid
      exact Tracks.refl (by simp) rfl
    · rw [matchSymbol, if_neg (by simpa [Symbol.isEmptyString] using hid)]
      exact matchTerminal_tracks hid
  | nonTerminal nt => exact hT nt run

theorem matchSymbols_tracks (hE : p.Expands tokens expand) (hT : p.TracksNested tokens expand)
    (ss : List Symbol) (run : Run π) :
    (p.matchSymbols tokens expand ss).Ensures run
      (fun _ => p.Tracks tokens (p.grammar.Visits tokens.toList ss run.cursor) run)
      (p.Blames tokens (p.grammar.Visits tokens.toList ss run.cursor) run.store) := by
  induction ss generalizing run with
  | nil => exact Tracks.refl (by simp) rfl
  | cons sym ss ih =>
    rw [matchSymbols_cons, ensures_bind]
    refine ((matchSymbol_ensures hE sym).and (matchSymbol_tracks hT sym)).mono
      (fun result run' h => ?_) fun e he => he.2.mono (fun x hx => hx.append ss) .refl
    obtain ⟨hf, ht⟩ := h
    cases result with
    | none => exact ht.congr fun x _ => Grammar.visits_cons_of_none (hf.1 [])
    | some v =>
      obtain ⟨tree, hr, he⟩ := hf
      have hsome := hr [] _ .nil
      have ha : p.grammar.Abandons tokens.toList run.store run'.store :=
        (he [] .nil [] _ .nil).abandons
      simp only [ensures_bind, ensures_pure]
      refine (ih run').mono (fun results run'' ht' => ?_) fun e he' => he'.mono (fun x hx => ?_) ha
      · exact (ht.trans ht' ha).congr fun x _ => Grammar.visits_cons_of_some hsome
      · exact .behind hsome hx

variable {nt : NonTerminal} {i k : Nat} {r : Rule π} {rules : List (Rule π)}
  {done : List (Nat × Rule π)} {outcome : Outcome} {run₀ : Run π}

theorem Considered.abandons {t : Store π}
    (h : p.Considered tokens i s done outcome t)
    (hdone : ∀ kr ∈ done, p.grammar.rule? nt kr.1 = some kr.2) :
    p.grammar.Abandons tokens.toList s t := by
  have hm := h.matched
  cases ho : outcome.matched with
  | none =>
    rw [ho] at hm
    exact hm.2
  | some m =>
    rw [ho] at hm
    obtain ⟨r, c, results, s', s'', hr, -, -, -, he, hact, ha⟩ := hm
    exact (Grammar.Evaluates.node (hdone _ hr) he hact .nil).abandons.trans ha

theorem tryRule_tracks (hE : p.Expands tokens expand) (hT : p.TracksNested tokens expand)
    (hrules : p.grammar.rules nt = .ok rules)
    (hdone : ∀ kr ∈ done, p.grammar.rule? nt kr.1 = some kr.2 ∧ kr.1 < k)
    (hr : p.grammar.rule? nt k = some r)
    (h : p.Considered tokens i run₀.store done outcome run.store)
    (ht : p.Tracks tokens (p.grammar.VisitsAmong tokens.toList nt i done) run₀ run) :
    (p.tryRule tokens expand nt i rules outcome k r).Ensures run
      (fun _ => p.Tracks tokens (p.grammar.VisitsAmong tokens.toList nt i (done ++ [(k, r)])) run₀)
      (p.Blames tokens (p.grammar.Visits tokens.toList [.nonTerminal nt] i) run₀.store) := by
  have ha := h.abandons fun kr hkr => (hdone kr hkr).1
  unfold tryRule
  split
  · rename_i he
    refine ht.congr fun x _ => ?_
    simp [Grammar.visitsAmong_append_singleton, Grammar.VisitsRule, he]
  · rename_i he
    rw [Bool.not_eq_true] at he
    simp only [ensures_bind, ensures_moveTo, ensures_record]
    refine ((matchSymbols_ensures hE r.symbols _).and (matchSymbols_tracks hE hT r.symbols _)).mono
      (fun result run' hf => ?_) fun e he' => he'.2.mono (fun x hx => .nested hr he hx) ha
    obtain ⟨hf, ht'⟩ := hf
    cases result with
    | none =>
      simp only [ensures_bind, ensures_record, ensures_pure]
      have ht'' := ht.trans (ht'.of_eq rfl rfl rfl) ha
      refine .of_eq (ht''.congr fun x _ => ?_) rfl rfl rfl
      rw [Grammar.visitsAmong_append_singleton, Grammar.visitsRule_of_none he hf.1]
    | some results =>
      obtain ⟨c, hc, hv⟩ := hf
      have hin := Rule.inputs_of_not_isEpsilon he results
      rw [ensures_bind]
      refine reduce_ensures (fun v s'' events hact => ?_) fun e s'' hact => ?_
      · have hreduces : p.grammar.Reduces tokens.toList run₀.store nt k c :=
          ⟨r, results, _, v, s'', hr, .abandon ha hv, by rwa [hin]⟩
        cases ho : outcome.matched with
        | none =>
          simp only [ensures_bind, ensures_cursor, ensures_pure]
          have ht'' := (ht.trans (ht'.of_eq rfl rfl rfl) ha).reduce hreduces
          refine .of_eq (ht''.congr fun x _ => ?_) rfl rfl rfl
          rw [Grammar.visitsAmong_append_singleton, Grammar.visitsRule_of_some he hc, or_assoc]
        | some earlier =>
          have hm := h.matched
          rw [ho] at hm
          obtain ⟨r₁, c₁, _, _, _, hmem, he₁, hc₁, -⟩ := hm
          obtain ⟨hr₁, hlt⟩ := hdone _ hmem
          have hfirst : rules[earlier.rule]? = some r₁ :=
            (Grammar.rule?_eq_getElem? hrules _).symm.trans hr₁
          simp only [ensures_bind, ensures_ofLookup, ensures_throw, hfirst, Option.elim_some]
          refine ⟨fun name hn => ⟨fun first hf => ⟨fun second hs => ?_, fun _ _ => trivial⟩,
            fun _ _ => trivial⟩, fun _ _ => trivial⟩
          exact ⟨nt, _, k, r₁, r, _, _, .expand, hlt, hr₁, hr, he₁, he, hc₁, hc, hn, hf, hs⟩
      · exact ⟨nt, k, r, c, results, _, s'', .reduce hr he hc, hr, .abandon ha hv, by rwa [hin]⟩

theorem tryRules_tracks (hE : p.Expands tokens expand) (hT : p.TracksNested tokens expand)
    (hrules : p.grammar.rules nt = .ok rules) (rest : List (Nat × Rule π))
    (hr : ∀ kr ∈ done ++ rest, p.grammar.rule? nt kr.1 = some kr.2)
    (hlt : (done ++ rest).Pairwise fun a b => a.1 < b.1)
    (ht : p.Tracks tokens (p.grammar.VisitsAmong tokens.toList nt i done) run₀ run)
    (h : p.Considered tokens i run₀.store done outcome run.store) :
    (p.tryRules tokens expand nt i rules outcome rest).Ensures run
      (fun _ => p.Tracks tokens (p.grammar.VisitsAmong tokens.toList nt i (done ++ rest)) run₀)
      (p.Blames tokens (p.grammar.Visits tokens.toList [.nonTerminal nt] i) run₀.store) := by
  induction rest generalizing done outcome run with
  | nil =>
    rw [List.append_nil]
    exact ht
  | cons kr rest ih =>
    obtain ⟨k, r⟩ := kr
    have hdone : ∀ kr ∈ done, p.grammar.rule? nt kr.1 = some kr.2 ∧ kr.1 < k := fun kr hkr =>
      ⟨hr kr (List.mem_append_left _ hkr),
        (List.pairwise_append.mp hlt).2.2 kr hkr _ List.mem_cons_self⟩
    have hk := hr (k, r) (by simp)
    have happ : done ++ (k, r) :: rest = done ++ [(k, r)] ++ rest := by simp
    rw [tryRules, ensures_bind, happ]
    refine ((tryRule_ensures hE hrules hdone hk h).and
      (tryRule_tracks hE hT hrules hdone hk h ht)).mono (fun outcome' run' h' => ?_)
      fun _ he => he.2
    exact ih (happ ▸ hr) (happ ▸ hlt) h'.2 h'.1

theorem conclude_tracks (hrules : p.grammar.rules nt = .ok rules)
    (ht : p.Tracks tokens (p.grammar.VisitsAmong tokens.toList nt i
      ((List.range rules.length).zip rules)) run₀ run)
    (h : p.Considered tokens i run₀.store ((List.range rules.length).zip rules) outcome
      run.store) :
    (conclude nt i rules outcome).Ensures run
      (fun _ => p.Tracks tokens (p.grammar.Visits tokens.toList [.nonTerminal nt] i) run₀)
      (p.Blames tokens (p.grammar.Visits tokens.toList [.nonTerminal nt] i) run₀.store) := by
  have hmem {k : Nat} {r : Rule π} := mem_numbered_iff (k := k) (r := r) hrules
  have hvisits {x : Visit τ} (hx : ∀ nt i, x ≠ .expand nt i) :
      p.grammar.Visits tokens.toList [.nonTerminal nt] i x ↔
        p.grammar.VisitsAmong tokens.toList nt i ((List.range rules.length).zip rules) x ∨
          ∃ k, p.grammar.FallsBack tokens.toList nt k i ∧ x = .reduce nt k (.empty .nil) := by
    rw [Grammar.visits_nonTerminal_iff (hx nt i)]
    simp only [Grammar.VisitsAmong, Prod.exists, hmem]
  have ha := h.abandons fun kr hkr => hmem.mp hkr
  unfold conclude
  split
  · rename_i m ho
    have hno (k : Nat) : ¬ p.grammar.FallsBack tokens.toList nt k i :=
      fun hk => absurd (h.onlyMatch hrules ho) hk.not_onlyMatch
    simp only [ensures_bind, ensures_moveTo, ensures_pure]
    refine .of_eq (ht.congr fun x hx => ?_) rfl rfl rfl
    simp [hvisits hx, hno]
  · rename_i k ho hk
    have hback (k' : Nat) : p.grammar.FallsBack tokens.toList nt k' i ↔ k' = k := by
      rw [h.fallsBack hrules ho, hk, Option.some.injEq, eq_comm]
    have hf := (hback k).mpr rfl
    obtain ⟨r, hr, he⟩ := hf.rule
    have hr' : rules[k]? = some r := (Grammar.rule?_eq_getElem? hrules k).symm.trans hr
    have hv : p.grammar.Evaluates tokens.toList r.symbols run.store (.empty .nil) [.null]
        run.store := .of_isEpsilon he run.store
    have hin := Rule.inputs_of_isEpsilon he [.null]
    simp only [ensures_bind, ensures_moveTo, hr']
    refine reduce_ensures (fun v s'' events hact => ?_) fun e s'' hact => ?_
    · have hreduces : p.grammar.Reduces tokens.toList run₀.store nt k (.empty .nil) :=
        ⟨r, _, _, v, s'', hr, .abandon ha hv, by rwa [hin]⟩
      refine .of_eq ((ht.reduce hreduces).congr fun x hx => ?_) rfl rfl rfl
      simp [hvisits hx, hback]
    · exact ⟨nt, k, r, .empty .nil, _, _, s'', .fallback hf, hr, .abandon ha hv, by rwa [hin]⟩
  · rename_i ho hk
    have hno (k : Nat) : ¬ p.grammar.FallsBack tokens.toList nt k i := by
      rw [h.fallsBack hrules ho, hk]
      simp
    simp only [ensures_bind, ensures_moveTo, ensures_pure]
    refine .of_eq (ht.congr fun x hx => ?_) rfl rfl rfl
    simp [hvisits hx, hno]

/-- An expansion makes all of its visits, or fails in one of them. -/
theorem tracksNested_expand (p : Parser π τ) (tokens : Array τ) (room : Nat) :
    p.TracksNested tokens (p.expand tokens room) := by
  induction room with
  | zero =>
    intro nt run
    unfold expand
    rw [ensures_bind]
    exact ensures_burn trivial fun _ _ => trivial
  | succ room ih =>
    intro nt run
    have hE := expands_expand p tokens room
    unfold expand
    simp only [ensures_bind]
    refine ensures_burn ?_ fun _ _ => trivial
    simp only [ensures_cursor, ensures_record, ensures_ofLookup]
    refine ⟨fun rules hrules => ?_, fun _ _ => trivial⟩
    have hr : ∀ kr ∈ (List.range rules.length).zip rules,
        p.grammar.rule? nt kr.1 = some kr.2 := fun _ => (mem_numbered_iff hrules).mp
    have hnone : p.Tracks tokens (p.grammar.VisitsAmong tokens.toList nt run.cursor []) run
        { run with steps := run.steps + 1, events := .enter nt run.cursor :: run.events } :=
      .refl (by simp [Grammar.VisitsAmong]) rfl
    have hlt := pairwise_range_zip rules
    refine ((tryRules_ensures hE hrules _ hr hlt considered_nil).and
      (tryRules_tracks hE ih hrules _ hr hlt hnone considered_nil)).mono
      (fun outcome run' h => ?_) fun _ he => he.2
    refine (conclude_tracks hrules h.2 h.1).mono (fun result run'' h' => ?_) fun _ he => he
    exact .of_eq h' rfl rfl rfl

/-- What a failure tells about the visits: the position is that of the furthest test and all
actions have succeeded, or there is one to blame. -/
def Reports (p : Parser π τ) (tokens : Array τ) (s : Store π) : ParseError → Prop
  | .notGenerated m | .trailingTokens _ m =>
    IsLUB {i | p.grammar.VisitsAll tokens.toList (.test i)} m ∧
      p.grammar.AllReduce tokens.toList s
  | e => p.Blames tokens (p.grammar.VisitsAll tokens.toList) s e

theorem Tracks.isLUB (h : p.Tracks tokens V run run') (hf : run.furthest = 0) :
    IsLUB {i | V (.test i)} run'.furthest := by
  rw [isLUB_iff_le_iff]
  intro m
  rw [h.furthest, hf]
  simp [mem_upperBounds]

theorem parseTokens_reports (p : Parser π τ) (tokens : Array τ) (s : Store π) :
    (p.parseTokens tokens).Ensures ⟨0, 0, 0, s, []⟩
      (fun _ _ => p.grammar.AllReduce tokens.toList s) (p.Reports tokens s) := by
  unfold parseTokens
  rw [ensures_bind]
  refine ((expands_expand p tokens _ _ _).and (tracksNested_expand p tokens _ _ _)).mono
    (fun result run h => ?_) fun e he => ?_
  · have hreport : IsLUB {i | p.grammar.VisitsAll tokens.toList (.test i)} run.furthest ∧
        p.grammar.AllReduce tokens.toList s := ⟨h.2.isLUB rfl, h.2.reduced⟩
    cases result with
    | none =>
      simp only [ensures_bind, ensures_get, ensures_throw]
      exact hreport
    | some v =>
      simp only [ensures_bind, ensures_get]
      split
      · exact hreport
      · exact hreport.2
  · obtain ⟨hcause, hblames⟩ := he
    cases hcause <;> exact hblames

variable {v : Value} {e : ParseError} {t : Store π}

theorem parse_ok_reduces (h : (p.parse tokens).runFrom s = (.ok v, t)) :
    p.grammar.AllReduce tokens.toList s := by
  obtain ⟨hv, rfl⟩ := Prod.mk.inj h
  exact (parseTokens_reports p tokens s).of_ok (Prod.ext hv rfl)

theorem parse_error_reports (h : (p.parse tokens).runFrom s = (.error e, t)) :
    p.Reports tokens s e := by
  obtain ⟨he, -⟩ := Prod.mk.inj h
  exact (parseTokens_reports p tokens s).of_error (Prod.ext he rfl)

end Parser

end ActionGrammar
