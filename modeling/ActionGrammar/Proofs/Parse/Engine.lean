import Mathlib
import ActionGrammar.Parse.Engine
import ActionGrammar.Proofs.Attempt
import ActionGrammar.Proofs.Grammar.Closed
import ActionGrammar.Proofs.Parse.Evaluation
import ActionGrammar.Proofs.Parse.Recognition

/-! # What a parse does

Whatever an expansion of a nonterminal yields is what recognition finds, and
its value is that of the trees found, evaluated with abandoned trees in between.
If it fails, there is a cause: a limit, an action that fails, two rules that
match, or a symbol that the grammar does not declare.
-/

namespace ActionGrammar

open Attempt

namespace Parsing

variable {π α : Type} {run : Run π} {Q : α → Run π → Prop} {R : ParseError → Prop}

theorem ensures_ofLookup {r : Except HandleFault α} :
    (ofLookup r : Parsing π α).Ensures run Q R ↔
      (∀ a, r = .ok a → Q a run) ∧ (∀ e, r = .error e → R (.fault e)) := by
  cases r <;> simp [ofLookup, Ensures, Except.mapError]

@[simp] theorem ensures_onStore {f : StateM (Store π) α} :
    (onStore f).Ensures run Q R ↔ Q (f run.store).1 { run with store := (f run.store).2 } := .rfl

theorem ensures_onEffect {f : Effect π EvalError α} :
    (onEffect f).Ensures run Q R ↔
      (∀ a s, f.runFrom run.store = (.ok a, s) → Q a { run with store := s }) ∧
      (∀ e s, f.runFrom run.store = (.error e, s) → R (.eval e)) := by
  rw [onEffect, ensures_bind, ensures_onStore]
  rcases f.runFrom run.store with ⟨_ | a, s⟩ <;> simp [Ensures, Except.mapError]

@[simp] theorem ensures_record {e : Event} {Q : Unit → Run π → Prop} :
    (record e).Ensures run Q R ↔ Q () { run with events := e :: run.events } := .rfl

@[simp] theorem ensures_cursor {Q : Nat → Run π → Prop} :
    cursor.Ensures run Q R ↔ Q run.cursor run := .rfl

@[simp] theorem ensures_moveTo {i : Nat} {Q : Unit → Run π → Prop} :
    (moveTo i).Ensures run Q R ↔ Q () { run with cursor := i } := .rfl

theorem ensures_burn {l : Limits} {Q : Unit → Run π → Prop}
    (hQ : Q () { run with steps := run.steps + 1 })
    (hR : ∀ n, l.fuel = some n → R (.fuelExhausted n)) : (burn l).Ensures run Q R := by
  unfold burn
  simp only [ensures_bind, ensures_get]
  split
  · split
    · simp [*]
    · simpa
  · simpa

end Parsing

namespace Parser

open Parsing

variable {π τ : Type} [Token τ] [TokenValue π τ]

inductive Cause (p : Parser π τ) (tokens : Array τ) (ss : List Symbol) : ParseError → Prop
  | fuel {n : UInt32} : p.limits.fuel = some n → Cause p tokens ss (.fuelExhausted n)
  | recursion : Cause p tokens ss (.recursionLimitExceeded p.limits.recursion)
  | eval {nt : NonTerminal} {k : Nat} {r : Rule π} {c : Forest τ} {results : List Value}
      {s s' t : Store π} {cause : EvalError} : p.grammar.rule? nt k = some r →
      p.grammar.Evaluates tokens.toList r.symbols s c results s' →
      (Resolved.evalAction (r.inputs results) r.action).runFrom s' = (.error cause, t) →
      Cause p tokens ss (.eval cause)
  | ambiguous {nt : NonTerminal} {k k' : Nat} {r r' : Rule π} {i : Nat} {x x' : Forest τ × Nat}
      {name first second : String} : k < k' →
      p.grammar.rule? nt k = some r → p.grammar.rule? nt k' = some r' →
      r.isEpsilon = false → r'.isEpsilon = false →
      p.grammar.Recognizes tokens.toList r.symbols i (some x) →
      p.grammar.Recognizes tokens.toList r'.symbols i (some x') →
      p.grammar.nonTerminalName nt = .ok name → p.grammar.production nt r = .ok first →
      p.grammar.production nt r' = .ok second →
      Cause p tokens ss (.ambiguous name first second i)
  | fault {h : HandleFault} : ¬ (p.grammar.IsClosed ∧ ∀ s ∈ ss, p.grammar.Declares s) →
      Cause p tokens ss (.fault h)

variable {p : Parser π τ} {tokens : Array τ} {ss : List Symbol} {run : Run π}

theorem Cause.mono {ss' : List Symbol} {e : ParseError} (h : p.Cause tokens ss' e)
    (hs : p.grammar.IsClosed → (∀ s ∈ ss, p.grammar.Declares s) →
      ∀ s ∈ ss', p.grammar.Declares s) : p.Cause tokens ss e := by
  cases h with
  | fuel h => exact .fuel h
  | recursion => exact .recursion
  | eval hr he ha => exact .eval hr he ha
  | ambiguous hk hr hr' he he' hm hm' hn hf hs => exact .ambiguous hk hr hr' he he' hm hm' hn hf hs
  | fault h => exact .fault fun ⟨hc, hd⟩ => h ⟨hc, hs hc hd⟩

/-- A symbol was matched or not. What follows it determines the rest. -/
def Found (p : Parser π τ) (tokens : Array τ) (s : Symbol) (run : Run π) (result : Option Value)
    (run' : Run π) : Prop :=
  match result with
  | none =>
    (∀ ss, p.grammar.Recognizes tokens.toList (s :: ss) run.cursor none) ∧
      p.grammar.Abandons tokens.toList run.store run'.store
  | some v =>
    ∃ tree : Forest τ → Forest τ,
      (∀ ss o, p.grammar.Recognizes tokens.toList ss run'.cursor o →
        p.grammar.Recognizes tokens.toList (s :: ss) run.cursor
          (o.map fun (f, j) => (tree f, j))) ∧
      (∀ ss f vs t, p.grammar.Evaluates tokens.toList ss run'.store f vs t →
        p.grammar.Evaluates tokens.toList (s :: ss) run.store (tree f) (v :: vs) t)

def FoundAll (p : Parser π τ) (tokens : Array τ) (ss : List Symbol) (run : Run π)
    (result : Option (List Value)) (run' : Run π) : Prop :=
  match result with
  | none =>
    p.grammar.Recognizes tokens.toList ss run.cursor none ∧
      p.grammar.Abandons tokens.toList run.store run'.store
  | some vs =>
    ∃ f, p.grammar.Recognizes tokens.toList ss run.cursor (some (f, run'.cursor)) ∧
      p.grammar.Evaluates tokens.toList ss run.store f vs run'.store

theorem matchTerminal_ensures {id : Terminal.Id} (hid : id ≠ ⟨0⟩) :
    (p.matchTerminal tokens id).Ensures run (p.Found tokens (.terminal id) run)
      (p.Cause tokens [.terminal id]) := by
  unfold matchTerminal
  simp only [ensures_bind]
  refine ensures_burn ?_ fun n hn => .fuel hn
  rw [ensures_ofLookup]
  refine ⟨fun terminal ht => ?_, fun e he => .fault ?_⟩
  · have hmiss (h : ∀ x, tokens[run.cursor]? = some x → ¬ p.grammar.Matches id x) (run' : Run π)
        (hs : run'.store = run.store) : p.Found tokens (.terminal id) run none run' :=
      ⟨fun ss => .mismatch hid (by simpa using h), hs ▸ .refl⟩
    simp only [ensures_cursor, ensures_modify]
    split
    · rename_i x hx
      split
      · rename_i hm
        have hx' : tokens.toList[run.cursor]? = some x := by simpa using hx
        have hm' : p.grammar.Matches id x := ⟨hid, terminal, ht, hm⟩
        refine ⟨.token id x, fun ss o ho => .shift hx' hm' ho, fun ss f vs t h => ?_⟩
        exact .token (List.mem_of_getElem? hx') hm' rfl h
      · rename_i hm
        refine hmiss (fun y hy hmy => hm ?_) _ rfl
        obtain ⟨-, terminal', ht', hmy⟩ := hmy
        obtain rfl := Except.ok.inj (ht.symm.trans ht')
        rwa [Option.some.inj (hx.symm.trans hy)]
    · rename_i hx
      exact hmiss (fun y hy => absurd (hy.symm.trans hx) (Option.some_ne_none y)) _ rfl
  · rintro ⟨-, hd⟩
    rw [Grammar.terminal_eq_ok (hd _ (List.mem_singleton_self _))] at he
    contradiction

/-- What nested nonterminals are expected to do. -/
def Expands (p : Parser π τ) (tokens : Array τ) (expand : NonTerminal → Parsing π (Option Value)) :
    Prop :=
  ∀ nt run, (expand nt).Ensures run (p.Found tokens (.nonTerminal nt) run)
    (p.Cause tokens [.nonTerminal nt])

variable {expand : NonTerminal → Parsing π (Option Value)}

def matchSymbol (p : Parser π τ) (tokens : Array τ)
    (expand : NonTerminal → Parsing π (Option Value)) : Symbol → Parsing π (Option Value)
  | .terminal id =>
    if (Symbol.terminal id).isEmptyString then pure (some .null) else p.matchTerminal tokens id
  | .nonTerminal nt => expand nt

theorem matchSymbols_cons (s : Symbol) (ss : List Symbol) :
    p.matchSymbols tokens expand (s :: ss) = do
      match ← p.matchSymbol tokens expand s with
      | none => return none
      | some v => return (← p.matchSymbols tokens expand ss).map (v :: ·) := by
  cases s with
  | terminal id =>
    rw [matchSymbols, matchSymbol]
    split <;> rfl
  | nonTerminal nt => rfl

theorem matchSymbol_ensures (hE : p.Expands tokens expand) (s : Symbol) :
    (p.matchSymbol tokens expand s).Ensures run (p.Found tokens s run) (p.Cause tokens [s]) := by
  cases s with
  | terminal id =>
    by_cases hid : id = ⟨0⟩
    · subst hid
      exact ⟨.empty, fun ss o ho => .empty ho, fun ss f vs t h => .empty h⟩
    · rw [matchSymbol, if_neg (by simpa [Symbol.isEmptyString] using hid)]
      exact matchTerminal_ensures hid
  | nonTerminal nt => exact hE nt run

theorem matchSymbols_ensures (hE : p.Expands tokens expand) (ss : List Symbol) (run : Run π) :
    (p.matchSymbols tokens expand ss).Ensures run (p.FoundAll tokens ss run)
      (p.Cause tokens ss) := by
  induction ss generalizing run with
  | nil => exact ⟨.nil, .nil, .nil⟩
  | cons s ss ih =>
    rw [matchSymbols_cons, ensures_bind]
    refine (matchSymbol_ensures hE s).mono (fun result run' hf => ?_)
      fun e he => he.mono fun _ h => ?_
    · cases result with
      | none => exact ⟨hf.1 ss, hf.2⟩
      | some v =>
        obtain ⟨tree, hr, he⟩ := hf
        simp only [ensures_bind, ensures_pure]
        refine (ih run').mono (fun results run'' hf => ?_) fun e he => he.mono fun _ h => ?_
        · cases results with
          | none => exact ⟨hr ss none hf.1, (he [] .nil [] _ .nil).abandons.trans hf.2⟩
          | some vs =>
            obtain ⟨f, hf, hv⟩ := hf
            exact ⟨tree f, hr ss _ hf, he ss f vs _ hv⟩
        · exact fun s' hs' => h s' (List.mem_cons_of_mem _ hs')
    · exact List.forall_mem_singleton.mpr (h s List.mem_cons_self)

def EpsilonAmong (rules : List (Nat × Rule π)) : Option Nat → Prop
  | none => ∀ kr ∈ rules, kr.2.isEpsilon = false
  | some k =>
    (∃ r, (k, r) ∈ rules ∧ r.isEpsilon = true) ∧ ∀ kr ∈ rules, kr.2.isEpsilon = true → kr.1 ≤ k

/-- What is known of the other rules after some rules that were tried from position `i` and
store `s`: none has matched, or only one, and the rest was abandoned. -/
def MatchAmong (p : Parser π τ) (tokens : Array τ) (i : Nat) (s : Store π)
    (rules : List (Nat × Rule π)) (t : Store π) : Option Match → Prop
  | none =>
    (∀ kr ∈ rules, kr.2.isEpsilon = false →
      p.grammar.Recognizes tokens.toList kr.2.symbols i none) ∧
    p.grammar.Abandons tokens.toList s t
  | some m =>
    ∃ r c results s' s'', (m.rule, r) ∈ rules ∧ r.isEpsilon = false ∧
      p.grammar.Recognizes tokens.toList r.symbols i (some (c, m.stop)) ∧
      (∀ kr ∈ rules, kr.1 ≠ m.rule → kr.2.isEpsilon = false →
        p.grammar.Recognizes tokens.toList kr.2.symbols i none) ∧
      p.grammar.Evaluates tokens.toList r.symbols s c results s' ∧
      (Resolved.evalAction (r.inputs results) r.action).runFrom s' = (.ok m.value, s'') ∧
      p.grammar.Abandons tokens.toList s'' t

structure Considered (p : Parser π τ) (tokens : Array τ) (i : Nat) (s : Store π)
    (rules : List (Nat × Rule π)) (outcome : Outcome) (t : Store π) : Prop where
  epsilon : EpsilonAmong rules outcome.epsilon
  matched : p.MatchAmong tokens i s rules t outcome.matched

variable {nt : NonTerminal} {i k : Nat} {s t u : Store π} {r : Rule π} {rules : List (Rule π)}
  {done : List (Nat × Rule π)} {outcome : Outcome}

theorem EpsilonAmong.push {o : Option Nat} (h : EpsilonAmong done o) (he : r.isEpsilon = false) :
    EpsilonAmong (done ++ [(k, r)]) o := by
  cases o with
  | none =>
    intro kr hkr
    rcases List.mem_append.mp hkr with hkr | hkr
    · exact h kr hkr
    · rwa [List.mem_singleton.mp hkr]
  | some k' =>
    obtain ⟨⟨r', hr', he'⟩, hl⟩ := h
    refine ⟨⟨r', List.mem_append_left _ hr', he'⟩, fun kr hkr hkre => ?_⟩
    rcases List.mem_append.mp hkr with hkr | hkr
    · exact hl kr hkr hkre
    · rw [List.mem_singleton.mp hkr, he] at hkre
      contradiction

theorem EpsilonAmong.last (hk : ∀ kr ∈ done, kr.1 < k) (he : r.isEpsilon = true) :
    EpsilonAmong (done ++ [(k, r)]) (some k) := by
  refine ⟨⟨r, by simp, he⟩, fun kr hkr _ => ?_⟩
  rcases List.mem_append.mp hkr with hkr | hkr
  · exact Nat.le_of_lt (hk kr hkr)
  · exact Nat.le_of_eq (congrArg Prod.fst (List.mem_singleton.mp hkr))

theorem MatchAmong.push {o : Option Match} (h : p.MatchAmong tokens i s done t o)
    (hr : r.isEpsilon = false → p.grammar.Recognizes tokens.toList r.symbols i none)
    (ha : p.grammar.Abandons tokens.toList t u) :
    p.MatchAmong tokens i s (done ++ [(k, r)]) u o := by
  cases o with
  | none =>
    refine ⟨fun kr hkr he => ?_, h.2.trans ha⟩
    rcases List.mem_append.mp hkr with hkr | hkr
    · exact h.1 kr hkr he
    · obtain rfl := List.mem_singleton.mp hkr
      exact hr he
  | some m =>
    obtain ⟨r', c, results, s', s'', hm, he, hc, ho, hv, hact, ht⟩ := h
    refine ⟨r', c, results, s', s'', List.mem_append_left _ hm, he, hc, fun kr hkr hne he => ?_,
      hv, hact, ht.trans ha⟩
    rcases List.mem_append.mp hkr with hkr | hkr
    · exact ho kr hkr hne he
    · obtain rfl := List.mem_singleton.mp hkr
      exact hr he

theorem reduce_ensures {results : List Value} {Q : Value → Run π → Prop} {R : ParseError → Prop}
    (hQ : ∀ v s events,
      (Resolved.evalAction results r.action).runFrom run.store = (.ok v, s) →
      Q v { run with store := s, events })
    (hR : ∀ e s, (Resolved.evalAction results r.action).runFrom run.store = (.error e, s) →
      R (.eval e)) :
    (reduce nt k r results).Ensures run Q R := by
  unfold reduce
  simp only [ensures_bind, ensures_onEffect, ensures_record, ensures_pure]
  exact ⟨fun v s h => hQ v s _ h, hR⟩

theorem ambiguous_ensures {r' : Rule π} {k' : Nat} {x x' : Forest τ × Nat}
    {Q : Outcome → Run π → Prop} (hk : k < k') (hrules : p.grammar.rules nt = .ok rules)
    (hr : p.grammar.rule? nt k = some r) (hr' : p.grammar.rule? nt k' = some r')
    (he : r.isEpsilon = false) (he' : r'.isEpsilon = false)
    (hm : p.grammar.Recognizes tokens.toList r.symbols i (some x))
    (hm' : p.grammar.Recognizes tokens.toList r'.symbols i (some x')) :
    Ensures (do
      let name ← ofLookup (p.grammar.nonTerminalName nt)
      let first ← ofLookup ((rules[k]?).elim (.ok "") (p.grammar.production nt))
      let second ← ofLookup (p.grammar.production nt r')
      throw (.ambiguous name first second i)) run Q (p.Cause tokens [.nonTerminal nt]) := by
  have hd (h : p.grammar.IsClosed ∧ ∀ s ∈ [Symbol.nonTerminal nt], p.grammar.Declares s) :
      p.grammar.Declares (.nonTerminal nt) := h.2 _ (List.mem_singleton_self _)
  rw [← Grammar.rule?_eq_getElem? hrules, hr, Option.elim_some]
  simp only [ensures_bind, ensures_ofLookup, ensures_throw]
  refine ⟨fun name hn => ⟨fun first hf => ⟨fun second hs => ?_, fun e h => .fault fun hc => ?_⟩,
    fun e h => .fault fun hc => ?_⟩, fun e h => .fault fun hc => ?_⟩
  · exact .ambiguous hk hr hr' he he' hm hm' hn hf hs
  · obtain ⟨_, ht⟩ := Grammar.production_isOk (hd hc) (hc.1.symbols hr')
    cases h.symm.trans ht
  · obtain ⟨_, ht⟩ := Grammar.production_isOk (hd hc) (hc.1.symbols hr)
    cases h.symm.trans ht
  · cases h.symm.trans (Grammar.nonTerminalName_eq_ok (hd hc))

theorem tryRule_ensures (hE : p.Expands tokens expand) (hrules : p.grammar.rules nt = .ok rules)
    (hdone : ∀ kr ∈ done, p.grammar.rule? nt kr.1 = some kr.2 ∧ kr.1 < k)
    (hr : p.grammar.rule? nt k = some r)
    (h : p.Considered tokens i s done outcome run.store) :
    (p.tryRule tokens expand nt i rules outcome k r).Ensures run
      (fun o run' => p.Considered tokens i s (done ++ [(k, r)]) o run'.store)
      (p.Cause tokens [.nonTerminal nt]) := by
  unfold tryRule
  split
  · rename_i he
    exact ⟨.last (fun kr hkr => (hdone kr hkr).2) he,
      h.matched.push (fun he' => by simp [he] at he') .refl⟩
  · rename_i he
    rw [Bool.not_eq_true] at he
    simp only [ensures_bind, ensures_moveTo, ensures_record]
    refine (matchSymbols_ensures hE r.symbols _).mono (fun result run' hf => ?_)
      fun e he => he.mono fun hc _ => hc.symbols hr
    cases result with
    | none =>
      simp only [ensures_bind, ensures_record, ensures_pure]
      exact ⟨h.epsilon.push he, h.matched.push (fun _ => hf.1) hf.2⟩
    | some results =>
      obtain ⟨c, hc, hv⟩ := hf
      have hin := Rule.inputs_of_not_isEpsilon he results
      rw [ensures_bind]
      refine reduce_ensures (fun v s'' events hact => ?_) fun e s'' hact => ?_
      · have hm := h.matched
        cases ho : outcome.matched with
        | none =>
          rw [ho] at hm
          simp only [ensures_bind, ensures_cursor, ensures_pure]
          refine ⟨h.epsilon.push he, r, c, results, _, s'', by simp, he, hc,
            fun kr hkr hne he => ?_, .abandon hm.2 hv, by rwa [hin], .refl⟩
          rcases List.mem_append.mp hkr with hkr | hkr
          · exact hm.1 kr hkr he
          · exact absurd (by rw [List.mem_singleton.mp hkr]) hne
        | some earlier =>
          rw [ho] at hm
          obtain ⟨r₁, c₁, _, _, _, hmem, he₁, hc₁, -⟩ := hm
          obtain ⟨hr₁, hlt⟩ := hdone _ hmem
          exact ambiguous_ensures hlt hrules hr₁ hr he₁ he hc₁ hc
      · exact .eval hr hv (by rwa [hin])

theorem tryRules_ensures (hE : p.Expands tokens expand) (hrules : p.grammar.rules nt = .ok rules)
    (rest : List (Nat × Rule π))
    (hr : ∀ kr ∈ done ++ rest, p.grammar.rule? nt kr.1 = some kr.2)
    (hlt : (done ++ rest).Pairwise fun a b => a.1 < b.1)
    (h : p.Considered tokens i s done outcome run.store) :
    (p.tryRules tokens expand nt i rules outcome rest).Ensures run
      (fun o run' => p.Considered tokens i s (done ++ rest) o run'.store)
      (p.Cause tokens [.nonTerminal nt]) := by
  induction rest generalizing done outcome run with
  | nil =>
    rw [List.append_nil]
    exact h
  | cons kr rest ih =>
    obtain ⟨k, r⟩ := kr
    have hdone : ∀ kr ∈ done, p.grammar.rule? nt kr.1 = some kr.2 ∧ kr.1 < k := fun kr hkr =>
      ⟨hr kr (List.mem_append_left _ hkr),
        (List.pairwise_append.mp hlt).2.2 kr hkr _ List.mem_cons_self⟩
    have happ : done ++ (k, r) :: rest = done ++ [(k, r)] ++ rest := by simp
    rw [tryRules, ensures_bind, happ]
    refine (tryRule_ensures hE hrules hdone (hr (k, r) (by simp)) h).mono
      (fun outcome' run' h' => ?_) fun _ he => he
    exact ih (happ ▸ hr) (happ ▸ hlt) h'

theorem mem_range_zip {α : Type} {l : List α} {k : Nat} {a : α} :
    (k, a) ∈ (List.range l.length).zip l ↔ l[k]? = some a := by
  rw [List.mem_iff_getElem?]
  constructor
  · rintro ⟨j, hj⟩
    obtain ⟨hk, ha⟩ := List.getElem?_zip_eq_some.mp hj
    obtain ⟨_, rfl⟩ := List.getElem?_eq_some_iff.mp hk
    rwa [List.getElem_range]
  · intro ha
    obtain ⟨hk, -⟩ := List.getElem?_eq_some_iff.mp ha
    exact ⟨k, List.getElem?_zip_eq_some.mpr ⟨List.getElem?_range hk, ha⟩⟩

omit [Token τ] [TokenValue π τ] in
theorem mem_numbered_iff {g : Grammar π τ} (hrules : g.rules nt = .ok rules) :
    (k, r) ∈ (List.range rules.length).zip rules ↔ g.rule? nt k = some r := by
  rw [mem_range_zip, Grammar.rule?_eq_getElem? hrules]

theorem pairwise_range_zip {α : Type} (l : List α) :
    ((List.range l.length).zip l).Pairwise fun a b => a.1 < b.1 := by
  rw [← List.pairwise_map, List.map_fst_zip (by simp)]
  exact List.pairwise_lt_range

theorem conclude_ensures (run₀ : Run π) (hrules : p.grammar.rules nt = .ok rules)
    (h : p.Considered tokens run₀.cursor run₀.store ((List.range rules.length).zip rules) outcome
      run.store) :
    (conclude nt run₀.cursor rules outcome).Ensures run (p.Found tokens (.nonTerminal nt) run₀)
      (p.Cause tokens [.nonTerminal nt]) := by
  have hmem {k : Nat} {r : Rule π} := mem_numbered_iff (k := k) (r := r) hrules
  obtain ⟨hε, hm⟩ := h
  unfold conclude
  split
  · rename_i _ m ho
    rw [ho] at hm
    obtain ⟨r, c, results, s', s'', hr, he, hc, hother, hv, hact, hs⟩ := hm
    simp only [ensures_bind, ensures_moveTo, ensures_pure]
    refine ⟨.node nt m.rule c, fun ss o h => ?_, fun ss f vs t h => ?_⟩
    · exact .rule (hmem.mp hr) he hc (fun k' r' hr' => hother _ (hmem.mpr hr')) h
    · exact .node (hmem.mp hr) hv hact (.abandon hs h)
  · rename_i k ho hk
    rw [ho] at hm
    rw [hk] at hε
    obtain ⟨⟨r, hr, he⟩, hlast⟩ := hε
    have hr' := hmem.mp hr
    have hr'' : rules[k]? = some r := (Grammar.rule?_eq_getElem? hrules k).symm.trans hr'
    have hv : p.grammar.Evaluates tokens.toList r.symbols run.store (.empty .nil) [.null]
        run.store := .of_isEpsilon he run.store
    have hin := Rule.inputs_of_isEpsilon he [.null]
    simp only [ensures_bind, ensures_moveTo, hr'']
    refine reduce_ensures (fun v s'' events hact => ?_) fun e s'' hact => ?_
    · refine ⟨.node nt k (.empty .nil), fun ss o h => ?_, fun ss f vs t h => ?_⟩
      · exact .epsilon hr' he (fun k' r' hr' => hlast _ (hmem.mpr hr'))
          (fun k' r' hr' => hm.1 _ (hmem.mpr hr')) h
      · exact .abandon hm.2 (.node hr' hv (by rwa [hin]) h)
    · exact .eval hr' hv (by rwa [hin])
  · rename_i ho hk
    rw [ho] at hm
    rw [hk] at hε
    simp only [ensures_bind, ensures_moveTo, ensures_pure]
    refine ⟨fun ss => .fail (fun k r hr => hε _ (hmem.mpr hr)) fun k r hr => ?_, hm.2⟩
    exact hm.1 _ (hmem.mpr hr) (hε _ (hmem.mpr hr))

theorem considered_nil : p.Considered tokens i s [] ⟨none, none⟩ s :=
  ⟨fun _ h => (nomatch h), fun _ h => (nomatch h), .refl⟩

/-- What an expansion yields is found, and where it fails there is a cause. -/
theorem expands_expand (p : Parser π τ) (tokens : Array τ) (room : Nat) :
    p.Expands tokens (p.expand tokens room) := by
  induction room with
  | zero =>
    intro nt run
    unfold expand
    rw [ensures_bind]
    exact ensures_burn .recursion fun n hn => .fuel hn
  | succ room ih =>
    intro nt run
    unfold expand
    simp only [ensures_bind]
    refine ensures_burn ?_ fun n hn => .fuel hn
    simp only [ensures_cursor, ensures_record, ensures_ofLookup]
    refine ⟨fun rules hrules => ?_, fun e he => .fault fun hc => ?_⟩
    · have hr : ∀ kr ∈ (List.range rules.length).zip rules,
          p.grammar.rule? nt kr.1 = some kr.2 := fun _ => (mem_numbered_iff hrules).mp
      refine (tryRules_ensures ih hrules _ hr (pairwise_range_zip rules) considered_nil).mono
        (fun outcome run' h => ?_) fun _ he => he
      refine (conclude_ensures run hrules h).mono (fun result run'' hf => ?_)
        fun _ he => he
      exact hf
    · rw [Grammar.rules_eq_ok (hc.2 _ (List.mem_singleton_self _))] at he
      contradiction

inductive Failure (p : Parser π τ) (tokens : Array τ) : ParseError → Prop
  | notGenerated {i : Nat} :
      p.grammar.Recognizes tokens.toList [.nonTerminal p.grammar.start] 0 none →
      Failure p tokens (.notGenerated i)
  | trailing {f : Forest τ} {i j : Nat} :
      p.grammar.Recognizes tokens.toList [.nonTerminal p.grammar.start] 0 (some (f, i)) →
      i < tokens.size → Failure p tokens (.trailingTokens i j)
  | cause {e : ParseError} : p.Cause tokens [.nonTerminal p.grammar.start] e → Failure p tokens e

theorem parseTokens_ensures (p : Parser π τ) (tokens : Array τ) (s : Store π) :
    (p.parseTokens tokens).Ensures ⟨0, 0, 0, s, []⟩
      (fun v run => ∃ f,
        p.grammar.Recognizes tokens.toList [.nonTerminal p.grammar.start] 0
          (some (f, tokens.size)) ∧
        p.grammar.Evaluates tokens.toList [.nonTerminal p.grammar.start] s f [v] run.store)
      (p.Failure tokens) := by
  unfold parseTokens
  rw [ensures_bind]
  refine (expands_expand p tokens _ _ _).mono (fun result run hf => ?_) fun e he => .cause he
  cases result with
  | none =>
    simp only [ensures_bind, ensures_get, ensures_throw]
    exact .notGenerated (hf.1 [])
  | some v =>
    obtain ⟨tree, hr, he⟩ := hf
    have hfound := hr [] _ .nil
    obtain ⟨-, hy, hj⟩ := hfound.derives _ _ rfl
    have hle := hy.length_le
    simp only [List.drop_zero, Array.length_toList, Nat.zero_add] at hle hj
    simp only [ensures_bind, ensures_get]
    split
    · rename_i hlt
      exact .trailing hfound hlt
    · obtain hc : run.cursor = tokens.size := by omega
      exact ⟨tree .nil, hc ▸ hfound, he [] .nil [] _ .nil⟩

section

variable {result : Except ParseError Value} {events : List Event}

theorem exists_of_run (h : p.run tokens s = ((result, events), t)) :
    ∃ final : Run π, (p.parseTokens tokens).runFrom ⟨0, 0, 0, s, []⟩ = (result, final) ∧
      events = final.events.reverse ∧ t = final.store := by
  rcases hf : (p.parseTokens tokens).runFrom ⟨0, 0, 0, s, []⟩ with ⟨result, final⟩
  unfold Parser.run at h
  rw [hf] at h
  cases h
  exact ⟨final, rfl, rfl, rfl⟩

theorem parse_of_run (h : p.run tokens s = ((result, events), t)) :
    (p.parse tokens).runFrom s = (result, t) :=
  congrArg (fun x => (x.1.1, x.2)) h

end

variable {v : Value} {e : ParseError}

/-- A parse that succeeds finds a derivation of all tokens, and its value is that of the
derivation. -/
theorem parse_ok (h : (p.parse tokens).runFrom s = (.ok v, t)) :
    ∃ f, p.grammar.Recognizes tokens.toList [.nonTerminal p.grammar.start] 0
        (some (f, tokens.size)) ∧
      p.grammar.Evaluates tokens.toList [.nonTerminal p.grammar.start] s f [v] t := by
  obtain ⟨hv, rfl⟩ := Prod.mk.inj h
  exact (parseTokens_ensures p tokens s).of_ok (Prod.ext hv rfl)

theorem parse_error (h : (p.parse tokens).runFrom s = (.error e, t)) : p.Failure tokens e := by
  obtain ⟨he, -⟩ := Prod.mk.inj h
  exact (parseTokens_ensures p tokens s).of_error (Prod.ext he rfl)

end Parser

end ActionGrammar
