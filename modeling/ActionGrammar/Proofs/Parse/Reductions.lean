import ActionGrammar.Proofs.Expr.Range
import ActionGrammar.Proofs.Parse.Engine
import ActionGrammar.Proofs.Parse.Noting
import ActionGrammar.Proofs.Parse.Slots
import ActionGrammar.Proofs.Parse.Soundness

/-! # Reductions of a parse

The action of a rule that matched is run on a result for each symbol of the rule.
What is noted along a parse shows it for every reduction, those of abandoned rules
included.
-/

namespace ActionGrammar

open Attempt Parsing

variable {π τ : Type} [Token τ] [TokenValue π τ] {p : Parser π τ} {tokens : Array τ}

def Rule.arity (r : Rule π) : Nat := if r.isEpsilon then 0 else r.symbols.length

/-- The reduction is one of a rule of the grammar. A rule that is the empty string alone has no
results, and the results of any other rule are those of its symbols. -/
structure Reduction.IsShaped (g : Grammar π τ) (tokens : List τ) (ρ : Reduction π) : Prop where
  rule : g.rule? ρ.nt ρ.index = some ρ.rule
  evaluated : ∃ s, ((Resolved.evalAction ρ.results ρ.rule.action).runFrom s).1 = ρ.outcome
  epsilon : ρ.rule.isEpsilon = true → ρ.results = []
  filled : ρ.rule.isEpsilon = false →
    ∃ stop, g.Fills tokens ρ.rule.symbols ρ.start ρ.results stop

namespace Reduction.IsShaped

variable {g : Grammar π τ} {xs : List τ} {ρ : Reduction π}

theorem length_eq (h : ρ.IsShaped g xs) : ρ.results.length = ρ.rule.arity := by
  unfold Rule.arity
  split
  · rename_i he
    rw [h.epsilon he]
    rfl
  · rename_i he
    obtain ⟨stop, hfills⟩ := h.filled (Bool.eq_false_iff.mpr he)
    exact hfills.length_eq

theorem of_isNull (h : ρ.IsShaped g xs) {k : Nat} {v : Value} (hv : ρ.results[k]? = some v)
    (hnull : v.isNull = true) :
    ρ.rule.symbols[k]? = some (.terminal ⟨0⟩) ∨
      ∃ id m x, ρ.rule.symbols[k]? = some (.terminal id) ∧
        g.Fills xs (ρ.rule.symbols.take k) ρ.start (ρ.results.take k) m ∧ xs[m]? = some x ∧
        g.Matches id x ∧ Grammar.HasNoValue π x := by
  cases he : ρ.rule.isEpsilon with
  | true =>
    rw [h.epsilon he] at hv
    exact nomatch hv
  | false =>
    obtain ⟨stop, hfills⟩ := h.filled he
    exact hfills.of_isNull hv hnull

theorem isInRange (h : ρ.IsShaped g xs) (hw : ∀ e ∈ ρ.rule.action, e.IsWithin ρ.rule.arity)
    {e : EvalError} (he : ρ.outcome = .error e) : e.IsInRange := by
  obtain ⟨s, hs⟩ := h.evaluated
  rw [← h.length_eq] at hw
  exact (Resolved.evalAction_staysInRange hw s).of_error (Prod.ext (hs.trans he) rfl)

end Reduction.IsShaped

namespace Parser

variable {expand : NonTerminal → Parsing π (Option Value)}
  {noting : NonTerminal → Noting π (Option Value)} {nt : NonTerminal} {i k : Nat} {r : Rule π}
  {rules : List (Rule π)} {outcome : Outcome} {done : List (Nat × Rule π)} {s : Store π}

def AnnotatesNested (p : Parser π τ) (tokens : Array τ)
    (noting : NonTerminal → Noting π (Option Value))
    (expand : NonTerminal → Parsing π (Option Value)) : Prop :=
  ∀ nt run, Annotates (Reduction.IsShaped p.grammar tokens.toList) run (noting nt) (expand nt)

theorem matchSymbols_annotates (hN : p.AnnotatesNested tokens noting expand) (ss : List Symbol)
    (run : Run π) :
    Annotates (Reduction.IsShaped p.grammar tokens.toList) run
      (Noting.matchSymbols p tokens noting ss) (p.matchSymbols tokens expand ss) := by
  induction ss generalizing run with
  | nil => exact .pure _
  | cons s ss ih =>
    have hsymbol : Annotates (Reduction.IsShaped p.grammar tokens.toList) run
        (Noting.matchSymbol p tokens noting s) (p.matchSymbol tokens expand s) := by
      cases s with
      | terminal id =>
        refine .quiet ?_
        split
        · exact isSilent_pure _
        · exact matchTerminal_isSilent id
      | nonTerminal nt => exact hN nt run
    rw [matchSymbols_cons]
    refine hsymbol.bind fun result run' _ => ?_
    cases result with
    | none => exact .pure _
    | some v => exact (ih run').bind fun _ _ _ => .pure _

theorem tryRule_annotates (hE : p.Expands tokens expand)
    (hN : p.AnnotatesNested tokens noting expand) (hr : p.grammar.rule? nt k = some r)
    (run : Run π) :
    Annotates (Reduction.IsShaped p.grammar tokens.toList) run
      (Noting.tryRule p tokens noting nt i rules outcome k r)
      (p.tryRule tokens expand nt i rules outcome k r) := by
  unfold Noting.tryRule tryRule
  split
  · exact .pure _
  · rename_i he
    rw [Bool.not_eq_true] at he
    refine .bind (.quiet (isSilent_moveTo i)) ?_
    rintro _ _ ⟨⟩
    refine .bind (.quiet (isSilent_record rfl)) ?_
    rintro _ _ ⟨⟩
    refine (matchSymbols_annotates hN r.symbols _).bind fun result after hafter => ?_
    cases result with
    | none => exact .bind (.quiet (isSilent_record rfl)) fun _ _ _ => .pure _
    | some results =>
      obtain ⟨f, hf, hv⟩ := (matchSymbols_ensures hE r.symbols _).of_ok hafter
      have hshape : Reduction.IsShaped p.grammar tokens.toList ⟨nt, k, r, i, results,
          ((Resolved.evalAction results r.action).runFrom after.store).1⟩ := by
        refine ⟨hr, ⟨_, rfl⟩, fun h => ?_, fun _ => ⟨_, hv.fills hf⟩⟩
        exact absurd (h.symm.trans he) nofun
      refine (Annotates.reduce hshape).bind fun value _ _ => ?_
      cases outcome.matched with
      | none => exact .bind (.quiet isSilent_cursor) fun _ _ _ => .pure _
      | some earlier =>
        refine .bind (.quiet (isSilent_ofLookup _)) fun _ _ _ => ?_
        refine .bind (.quiet (isSilent_ofLookup _)) fun _ _ _ => ?_
        exact .bind (.quiet (isSilent_ofLookup _)) fun _ _ _ => .throw nofun

theorem tryRules_annotates (hE : p.Expands tokens expand)
    (hN : p.AnnotatesNested tokens noting expand) {rest : List (Nat × Rule π)}
    (hr : ∀ kr ∈ rest, p.grammar.rule? nt kr.1 = some kr.2) (run : Run π) :
    Annotates (Reduction.IsShaped p.grammar tokens.toList) run
      (Noting.tryRules p tokens noting nt i rules outcome rest)
      (p.tryRules tokens expand nt i rules outcome rest) := by
  induction rest generalizing outcome run with
  | nil => exact .pure _
  | cons kr rest ih =>
    obtain ⟨hk, hr⟩ := List.forall_mem_cons.mp hr
    exact (tryRule_annotates hE hN hk run).bind fun _ after _ => ih hr after

theorem conclude_annotates (hrules : p.grammar.rules nt = .ok rules)
    (hε : EpsilonAmong ((List.range rules.length).zip rules) outcome.epsilon) (run : Run π) :
    Annotates (Reduction.IsShaped p.grammar tokens.toList) run
      (Noting.conclude nt i rules outcome) (conclude nt i rules outcome) := by
  unfold Noting.conclude conclude
  obtain ⟨_ | m, _ | index⟩ := outcome
  · exact .bind (.quiet (isSilent_moveTo i)) fun _ _ _ => .pure _
  · obtain ⟨⟨r, hmem, he⟩, -⟩ := hε
    have hr : p.grammar.rule? nt index = some r := (mem_numbered_iff hrules).mp hmem
    have hget : rules[index]? = some r := (Grammar.rule?_eq_getElem? hrules index).symm.trans hr
    refine .bind (.quiet (isSilent_moveTo i)) fun _ after _ => ?_
    rw [hget]
    refine (Annotates.reduce ⟨hr, ⟨_, rfl⟩, fun _ => rfl, fun h => ?_⟩).bind fun _ _ _ => .pure _
    exact absurd (he.symm.trans h) nofun
  · exact .bind (.quiet (isSilent_moveTo _)) fun _ _ _ => .pure _
  · exact .bind (.quiet (isSilent_moveTo _)) fun _ _ _ => .pure _

theorem annotatesNested_expand (p : Parser π τ) (tokens : Array τ) (room : Nat) :
    p.AnnotatesNested tokens (Noting.expand p tokens room) (p.expand tokens room) := by
  induction room with
  | zero =>
    intro nt run
    exact .bind (.quiet (isSilent_burn _)) fun _ _ _ => .throw nofun
  | succ room ih =>
    intro nt run
    unfold Noting.expand expand
    have hE := expands_expand p tokens room
    refine .bind (.quiet (isSilent_burn _)) fun _ _ _ => ?_
    refine .bind (.quiet isSilent_cursor) fun start _ _ => ?_
    refine .bind (.quiet (isSilent_record rfl)) fun _ _ _ => ?_
    refine .bind (.quiet (isSilent_ofLookup _)) fun rules before hrules => ?_
    have hrules : p.grammar.rules nt = .ok rules :=
      mapError_eq_ok_iff.mp (congrArg Prod.fst hrules)
    have hr : ∀ kr ∈ (List.range rules.length).zip rules,
        p.grammar.rule? nt kr.1 = some kr.2 := fun _ => (mem_numbered_iff hrules).mp
    refine (tryRules_annotates hE ih hr before).bind fun outcome after hafter => ?_
    have hconsidered := (tryRules_ensures hE hrules _ hr (pairwise_range_zip rules)
      considered_nil).of_ok hafter
    refine (conclude_annotates hrules hconsidered.epsilon after).bind fun result _ _ => ?_
    refine .bind (.quiet isSilent_cursor) fun _ _ _ => ?_
    exact .bind (.quiet (isSilent_record rfl)) fun _ _ _ => .pure _

theorem parseTokens_annotates (p : Parser π τ) (tokens : Array τ) (run : Run π) :
    Annotates (Reduction.IsShaped p.grammar tokens.toList) run
      (Noting.parseTokens p tokens) (p.parseTokens tokens) := by
  unfold Noting.parseTokens parseTokens
  refine (annotatesNested_expand p tokens _ _ run).bind fun result _ _ => ?_
  cases result with
  | none => exact .bind (.quiet isSilent_get) fun _ _ _ => .throw nofun
  | some v =>
    refine .bind (.quiet isSilent_get) fun after _ _ => ?_
    split
    · exact .throw nofun
    · exact .pure v

/-- A parse with its notes is the parse, and the notes are the reductions of its trace and the one
that fails. -/
theorem run_annotated (p : Parser π τ) (tokens : Array τ) (s : Store π) :
    (Noting.run p tokens s).1 = p.run tokens s ∧
    (p.run tokens s).1.2.filter Event.isReduce =
      (p.reductions tokens s).filterMap Reduction.event? ∧
    (∀ e, (p.run tokens s).1.1 = .error (.eval e) →
      ∃ ρ ∈ p.reductions tokens s, ρ.outcome = .error e) ∧
    ∀ ρ ∈ p.reductions tokens s, ρ.IsShaped p.grammar tokens.toList := by
  obtain ⟨noted, hrun, hreduced, hfailed, hshaped⟩ :=
    parseTokens_annotates p tokens ⟨0, 0, 0, s, []⟩ []
  rw [List.nil_append] at hrun
  have hnoted : p.reductions tokens s = noted := congrArg (fun x => x.2.2) hrun
  rw [hnoted]
  refine ⟨?_, hreduced, hfailed, hshaped⟩
  unfold Noting.run
  rw [hrun]
  rfl

/-- In any parse, the action of a rule is run on a result for each symbol, or on none where the rule
is the empty string alone. A result is null only for the empty string and for a token without a
value. So no result is missing if all actions stay below the arity of their rules. -/
theorem run_reductions (p : Parser π τ) (tokens : Array τ) (s : Store π) :
    ((Noting.run p tokens s).1 = p.run tokens s ∧
      (p.run tokens s).1.2.filter Event.isReduce =
        (p.reductions tokens s).filterMap Reduction.event? ∧
      ∀ e, (p.run tokens s).1.1 = .error (.eval e) →
        ∃ ρ ∈ p.reductions tokens s, ρ.outcome = .error e) ∧
    (∀ ρ ∈ p.reductions tokens s, ρ.IsShaped p.grammar tokens.toList ∧
      ρ.results.length = (if ρ.rule.isEpsilon then 0 else ρ.rule.symbols.length) ∧
      ∀ k v, ρ.results[k]? = some v → v.isNull = true →
        ρ.rule.symbols[k]? = some (.terminal ⟨0⟩) ∨
          ∃ id m x, ρ.rule.symbols[k]? = some (.terminal id) ∧
            p.grammar.Fills tokens.toList (ρ.rule.symbols.take k) ρ.start (ρ.results.take k) m ∧
            tokens[m]? = some x ∧ p.grammar.Matches id x ∧ Grammar.HasNoValue π x) ∧
    ((∀ nt k r, p.grammar.rule? nt k = some r → ∀ e ∈ r.action, e.IsWithin r.arity) →
      ∀ i n, (p.run tokens s).1.1 ≠ .error (.eval (.resultOutOfRange i n))) := by
  obtain ⟨hrun, hevents, hfailed, hshaped⟩ := run_annotated p tokens s
  refine ⟨⟨hrun, hevents, hfailed⟩, fun ρ hρ => ⟨hshaped ρ hρ, (hshaped ρ hρ).length_eq, ?_⟩, ?_⟩
  · intro k v hv hnull
    simpa using (hshaped ρ hρ).of_isNull hv hnull
  · intro hwithin i n herror
    obtain ⟨ρ, hρ, hout⟩ := hfailed _ herror
    have hρ := hshaped ρ hρ
    exact hρ.isInRange (hwithin _ _ _ hρ.rule) hout i n rfl

theorem lists_isWithin {nt : NonTerminal} {k : Nat} {r : Rule (List Value)}
    (h : lists.grammar.rule? nt k = some r) : ∀ e ∈ r.action, e.IsWithin r.arity := by
  have hresult {n i : Nat} (hi : i < n) : (.result i : Resolved (List Value)).IsWithin n :=
    .result hi
  have hconstruct {n : Nat} {args : List (Resolved (List Value))}
      (h : ∀ e ∈ args, e.IsWithin n) : Expr.IsWithin n (.construct listOf args) :=
    .construct trivial h
  obtain ⟨set, hset, hk⟩ := Grammar.rule?_eq_some_iff.mp h
  have hsets : ∀ set ∈ lists.grammar.nonTerminals, ∀ r ∈ set.rules, ∀ e ∈ r.action,
      e.IsWithin r.arity := by
    simp [lists, Rule.arity, Rule.isEpsilon, Symbol.isEmptyString, hresult, hconstruct]
  exact hsets set (Array.mem_of_getElem? hset) r (List.mem_of_getElem? hk)

def bareTokens : Array GrammarText.Token := #[⟨.int, 0, 1, some (.int 1)⟩, ⟨.int, 2, 3, none⟩]

/-- The list of the second integer is built twice, because the first attempt at the first integer is
abandoned. It holds null each time. -/
theorem run_reductions_lists :
    (lists.reductions bareTokens ⟨#[]⟩).map (fun ρ => (ρ.index, ρ.start, ρ.results)) =
      [(2, 2, []), (2, 2, []), (1, 1, [.null, .object ⟨1, ⟨"list"⟩⟩]),
        (2, 2, []), (2, 2, []), (1, 1, [.null, .object ⟨4, ⟨"list"⟩⟩]),
        (1, 0, [.int 1, .object ⟨5, ⟨"list"⟩⟩])] ∧
    ∀ i n, (lists.run bareTokens ⟨#[]⟩).1.1 ≠ .error (.eval (.resultOutOfRange i n)) := by
  refine ⟨by cbv, ?_⟩
  exact (run_reductions lists bareTokens ⟨#[]⟩).2.2 fun _ _ _ => lists_isWithin

end Parser

end ActionGrammar
