import ActionGrammar.GrammarText.Token
import ActionGrammar.Parse.Trace
import ActionGrammar.Proofs.Grammar.WellFormed
import ActionGrammar.Proofs.Parse.Engine

/-! # Traces without unknown symbols

Where the grammar declares all symbols of its rules, a parse never looks up a
symbol that it does not have, and all of its events, also those before a
failure, are about symbols and rules of the grammar. So a trace shows them by
their names.
-/

namespace ActionGrammar

open Attempt

variable {π τ : Type}

def Event.IsOf (g : Grammar π τ) : Event → Prop
  | .enter nt _ | .exit nt _ _ => g.Declares (.nonTerminal nt)
  | .shift id _ | .mismatch id _ => g.Declares (.terminal id)
  | .attempt nt k _ | .backtrack nt k _ | .reduce nt k _ => ∃ r, g.rule? nt k = some r

def Trace.Printer.Shows (t : Trace.Printer π τ) : Event → Prop
  | .enter nt _ | .exit nt _ _ => t.grammar.nonTerminalName nt = .ok (t.nonTerminalName nt)
  | .shift id _ | .mismatch id _ =>
    (t.grammar.terminal id).map (·.name) = .ok (t.terminalName id)
  | .attempt nt k _ | .backtrack nt k _ | .reduce nt k _ =>
    ∃ r, t.grammar.rule? nt k = some r ∧ t.grammar.production nt r = .ok (t.production nt k)

theorem Event.IsOf.shows {t : Trace.Printer π τ} {e : Event} (hg : t.grammar.IsClosed)
    (h : e.IsOf t.grammar) : t.Shows e := by
  have hnt {nt : NonTerminal} (hd : t.grammar.Declares (.nonTerminal nt)) :
      t.grammar.nonTerminalName nt = .ok (t.nonTerminalName nt) := by
    rw [Trace.Printer.nonTerminalName, Grammar.nonTerminalName_eq_ok hd]
    rfl
  have hid {id : Terminal.Id} (hd : t.grammar.Declares (.terminal id)) :
      (t.grammar.terminal id).map (·.name) = .ok (t.terminalName id) := by
    rw [Trace.Printer.terminalName, Grammar.terminal_eq_ok hd]
    rfl
  have hrule {nt : NonTerminal} {k : Nat} (h : ∃ r, t.grammar.rule? nt k = some r) :
      ∃ r, t.grammar.rule? nt k = some r ∧
        t.grammar.production nt r = .ok (t.production nt k) := by
    obtain ⟨r, hr⟩ := h
    obtain ⟨text, htext⟩ := hg.production_isOk hr
    have hrules := Grammar.rules_eq_ok (Grammar.declares_of_rule? hr)
    have hk := (Grammar.rule?_eq_getElem? hrules k).symm.trans hr
    refine ⟨r, hr, ?_⟩
    rw [Trace.Printer.production, hrules, htext]
    simp only [hk, Option.elim_some, htext]
    rfl
  cases e with
  | enter => exact hnt h
  | exit => exact hnt h
  | shift => exact hid h
  | mismatch => exact hid h
  | attempt => exact hrule h
  | backtrack => exact hrule h
  | reduce => exact hrule h

namespace Parsing

variable {α β : Type} {Q : Event → Prop} {x : Parsing π α} {f : α → Parsing π β}

/-- Only events in `Q` are recorded, whether the attempt fails or not. -/
def Writes (Q : Event → Prop) (x : Parsing π α) : Prop :=
  ∀ run, (∀ e ∈ run.events, Q e) → ∀ e ∈ (x.runFrom run).2.events, Q e

theorem Writes.bind (hx : Writes Q x) (hf : ∀ a, Writes Q (f a)) : Writes Q (x >>= f) := by
  intro run h
  have hevents := hx run h
  rw [runFrom_bind]
  rcases hrun : x.runFrom run with ⟨_ | a, run'⟩ <;> rw [hrun] at hevents
  · exact hevents
  · exact hf a run' hevents

theorem Writes.ofLookup_bind {r : Except HandleFault α} (hf : ∀ a, r = .ok a → Writes Q (f a)) :
    Writes Q (ofLookup r >>= f) := by
  intro run h
  rw [runFrom_bind]
  cases r with
  | error => exact h
  | ok a => exact hf a rfl run h

theorem writes_of_events (hx : ∀ run, (x.runFrom run).2.events = run.events) : Writes Q x := by
  intro run h
  rwa [hx run]

theorem writes_pure (a : α) : Writes Q (pure a : Parsing π α) := writes_of_events fun _ => rfl

theorem writes_throw (e : ParseError) : Writes Q (throw e : Parsing π α) :=
  writes_of_events fun _ => rfl

theorem writes_cursor : Writes Q (cursor : Parsing π Nat) := writes_of_events fun _ => rfl

theorem writes_moveTo (i : Nat) : Writes Q (moveTo i : Parsing π Unit) :=
  writes_of_events fun _ => rfl

theorem writes_onStore (f : StateM (Store π) α) : Writes Q (onStore f) :=
  writes_of_events fun _ => rfl

theorem writes_onEffect (f : Effect π EvalError α) : Writes Q (onEffect f) :=
  (writes_onStore _).bind fun _ => writes_of_events fun _ => rfl

theorem writes_burn (l : Limits) : Writes Q (burn l : Parsing π Unit) := by
  refine writes_of_events fun run => ?_
  unfold burn
  simp only [runFrom_bind, runFrom_get]
  split
  · split <;> rfl
  · rfl

theorem writes_record {e : Event} (h : Q e) : Writes Q (record e : Parsing π Unit) :=
  fun _ hrun => List.forall_mem_cons.mpr ⟨h, hrun⟩

end Parsing

namespace Parser

open Parsing Grammar

variable [Token τ] [TokenValue π τ] {p : Parser π τ} {tokens : Array τ} {nt : NonTerminal}
  {i k : Nat} {r : Rule π} {rules : List (Rule π)} {outcome : Outcome}
  {expand : NonTerminal → Parsing π (Option Value)}

theorem matchTerminal_writes (id : Terminal.Id) :
    Writes (Event.IsOf p.grammar) (p.matchTerminal tokens id) := by
  refine (writes_burn _).bind fun _ => .ofLookup_bind fun terminal ht => ?_
  have hd : p.grammar.Declares (.terminal id) := declares_of_terminal ht
  refine writes_cursor.bind fun here => (writes_of_events fun _ => rfl).bind fun _ => ?_
  split
  · split
    · refine (writes_record hd).bind fun _ => (writes_onStore _).bind fun v => ?_
      exact (writes_moveTo _).bind fun _ => writes_pure _
    · exact (writes_record hd).bind fun _ => writes_pure _
  · exact (writes_record hd).bind fun _ => writes_pure _

def WritesNested (p : Parser π τ) (expand : NonTerminal → Parsing π (Option Value)) : Prop :=
  ∀ nt, p.grammar.Declares (.nonTerminal nt) → Writes (Event.IsOf p.grammar) (expand nt)

theorem matchSymbols_writes (hE : p.WritesNested expand) {ss : List Symbol}
    (hss : ∀ s ∈ ss, p.grammar.Declares s) :
    Writes (Event.IsOf p.grammar) (p.matchSymbols tokens expand ss) := by
  induction ss with
  | nil => exact writes_pure _
  | cons s ss ih =>
    obtain ⟨hs, hss⟩ := List.forall_mem_cons.mp hss
    have hsymbol : Writes (Event.IsOf p.grammar) (p.matchSymbol tokens expand s) := by
      cases s with
      | terminal id =>
        rw [matchSymbol]
        split
        · exact writes_pure _
        · exact matchTerminal_writes id
      | nonTerminal nt => exact hE nt hs
    rw [matchSymbols_cons]
    refine hsymbol.bind fun result => ?_
    cases result with
    | none => exact writes_pure _
    | some v => exact (ih hss).bind fun _ => writes_pure _

omit [Token τ] [TokenValue π τ] in
theorem reduce_writes (hr : p.grammar.rule? nt k = some r) (results : List Value) :
    Writes (Event.IsOf p.grammar) (reduce nt k r results) :=
  (writes_onEffect _).bind fun _ => (writes_record ⟨r, hr⟩).bind fun _ => writes_pure _

theorem tryRule_writes (hg : p.grammar.IsClosed) (hE : p.WritesNested expand)
    (hr : p.grammar.rule? nt k = some r) :
    Writes (Event.IsOf p.grammar) (p.tryRule tokens expand nt i rules outcome k r) := by
  unfold tryRule
  split
  · exact writes_pure _
  · refine (writes_moveTo _).bind fun _ => (writes_record ⟨r, hr⟩).bind fun _ => ?_
    refine (matchSymbols_writes hE (hg.symbols hr)).bind fun result => ?_
    cases result with
    | none => exact (writes_record ⟨r, hr⟩).bind fun _ => writes_pure _
    | some results =>
      refine (reduce_writes hr results).bind fun v => ?_
      cases outcome.matched with
      | none => exact writes_cursor.bind fun _ => writes_pure _
      | some earlier =>
        refine .ofLookup_bind fun _ _ => .ofLookup_bind fun _ _ => .ofLookup_bind fun _ _ => ?_
        exact writes_throw _

theorem tryRules_writes (hg : p.grammar.IsClosed) (hE : p.WritesNested expand)
    {rest : List (Nat × Rule π)} (hr : ∀ kr ∈ rest, p.grammar.rule? nt kr.1 = some kr.2) :
    Writes (Event.IsOf p.grammar) (p.tryRules tokens expand nt i rules outcome rest) := by
  induction rest generalizing outcome with
  | nil => exact writes_pure _
  | cons kr rest ih =>
    obtain ⟨hk, hr⟩ := List.forall_mem_cons.mp hr
    exact (tryRule_writes hg hE hk).bind fun _ => ih hr

omit [Token τ] [TokenValue π τ] in
theorem conclude_writes (hd : p.grammar.rules nt = .ok rules) :
    Writes (Event.IsOf p.grammar) (conclude nt i rules outcome) := by
  unfold conclude
  split
  · exact (writes_moveTo _).bind fun _ => writes_pure _
  · refine (writes_moveTo _).bind fun _ => ?_
    split
    · rename_i r hr
      have hr' := (rule?_eq_getElem? hd _).trans hr
      exact (reduce_writes hr' []).bind fun _ => writes_pure _
    · exact writes_pure _
  · exact (writes_moveTo _).bind fun _ => writes_pure _

theorem expand_writes (hg : p.grammar.IsClosed) (room : Nat) :
    p.WritesNested (p.expand tokens room) := by
  induction room with
  | zero => exact fun _ _ => (writes_burn _).bind fun _ => writes_throw _
  | succ room ih =>
    intro nt hd
    refine (writes_burn _).bind fun _ => writes_cursor.bind fun start => ?_
    refine (writes_record hd).bind fun _ => .ofLookup_bind fun rules hrules => ?_
    have hr : ∀ kr ∈ (List.range rules.length).zip rules,
        p.grammar.rule? nt kr.1 = some kr.2 := fun _ => (mem_numbered_iff hrules).mp
    refine (tryRules_writes hg ih hr).bind fun outcome => (conclude_writes hrules).bind fun _ => ?_
    exact writes_cursor.bind fun _ => (writes_record hd).bind fun _ => writes_pure _

theorem parseTokens_writes (hg : p.grammar.IsClosed) :
    Writes (Event.IsOf p.grammar) (p.parseTokens tokens) := by
  refine (expand_writes hg _ _ hg.start).bind fun result => ?_
  cases result with
  | none => exact (writes_of_events fun _ => rfl).bind fun _ => writes_throw _
  | some v =>
    refine (writes_of_events fun _ => rfl).bind fun run => ?_
    split
    · exact (writes_throw _).bind fun _ => writes_pure _
    · exact writes_pure _

theorem run_isOf (hg : p.grammar.IsClosed) (s : Store π) :
    ∀ e ∈ (p.run tokens s).1.2, e.IsOf p.grammar := by
  intro e he
  exact parseTokens_writes hg ⟨0, 0, 0, s, []⟩ nofun e (List.mem_reverse.mp he)

theorem run_ne_fault (hg : p.grammar.IsClosed) (s : Store π) (h : HandleFault) :
    (p.run tokens s).1.1 ≠ .error (.fault h) := by
  intro hrun
  cases parse_error (p := p) (Prod.ext hrun rfl) with
  | cause hcause =>
    cases hcause with
    | fault hn => exact hn ⟨hg, List.forall_mem_singleton.mpr hg.start⟩

end Parser

namespace Builder

/-- A grammar that is built is well-formed, whatever was registered and whatever was refused. It is
checked for left recursion without a look outside of the table of its nonterminals, it is written,
and it is parsed with under any limits, all without a fault, and traces show names of its own. -/
theorem after_build_wellFormed [Token τ] [TokenValue π τ] {xs : List (Registration τ)}
    {r : Registry π} {g : Grammar π τ} (h : (after xs).build r = .ok g) :
    g.IsWellFormed ∧
    (∀ fault, LeftRecursion.check g ≠ .error (.fault fault)) ∧
    (∀ outside, LeftRecursion.checkTable g outside = LeftRecursion.check g) ∧
    (∃ text, g.dump = .ok text) ∧
    (∀ nt k rule, g.rule? nt k = some rule → ∃ text, g.production nt rule = .ok text) ∧
    ∀ p : Parser π τ, p.grammar = g → ∀ tokens s,
      (∀ fault, (p.run tokens s).1.1 ≠ .error (.fault fault)) ∧
      ∀ t : Trace.Printer π τ, t.grammar = g → ∀ e ∈ (p.run tokens s).1.2, t.Shows e := by
  have hg := (isSound_after xs).isWellFormed h
  refine ⟨hg, LeftRecursion.check_ne_fault hg.closed, LeftRecursion.checkTable_eq hg.closed,
    hg.closed.dump_isOk, fun nt k rule => hg.closed.production_isOk, ?_⟩
  rintro p rfl tokens s
  refine ⟨Parser.run_ne_fault hg.closed s, fun t ht e he => ?_⟩
  exact Event.IsOf.shows (ht ▸ hg.closed) (ht ▸ Parser.run_isOf hg.closed s e he)

/-- The second registration is refused, and the third one comes after the name is used. -/
def lateInt : List (Registration GrammarText.Token) :=
  [.rule "Start" ["int"] [.constant (.int 0)], .terminal "Start" (.reference .int),
    .terminal "int" (.reference .int)]

theorem after_build_wellFormed_late : ∃ g : Grammar Unit GrammarText.Token,
    (after lateInt).build ⟨[]⟩ = .ok g ∧ g.IsWellFormed ∧ ∃ text, g.dump = .ok text := by
  obtain ⟨g, hbuild⟩ : ∃ g : Grammar Unit GrammarText.Token,
      (after lateInt).build ⟨[]⟩ = .ok g := ⟨_, rfl⟩
  obtain ⟨hg, -, -, hdump, -⟩ := after_build_wellFormed hbuild
  exact ⟨g, hbuild, hg, hdump⟩

end Builder

end ActionGrammar
