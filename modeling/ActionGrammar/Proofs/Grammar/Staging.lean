import ActionGrammar.GrammarText.Declaration

/-! # Staging terminals and rules

A terminal is registered behind the others. A rule goes behind the other rules
of its nonterminal, which comes behind the other nonterminals if it is new.
-/

namespace ActionGrammar

variable {τ : Type}

namespace Builder

def withRule (nonTerminals : List (String × List StagedRule)) (name : String) (rule : StagedRule) :
    List (String × List StagedRule) :=
  match nonTerminals.findIdx? (·.1 == name) with
  | some i => nonTerminals.modify i fun (name, rules) => (name, rules ++ [rule])
  | none => nonTerminals ++ [(name, [rule])]

variable {b : Builder τ} {name : String}

theorem registerTerminal_eq_ok [Token τ] {token : τ} (ht : b.hasTerminal name = false)
    (hn : b.hasNonTerminal name = false) (hc : b.clash? token = none) :
    (registerTerminal name token).runFrom b =
      (.ok ⟨b.terminals.length⟩, { b with terminals := b.terminals ++ [(name, some token)] }) := by
  simp only [registerTerminal, Attempt.runFrom_bind, Attempt.runFrom_get, ht, hn, hc,
    Bool.false_eq_true, if_false]
  rfl

theorem nonTerminals_of_registerTerminal [Token τ] {token : τ} {id : Terminal.Id} {b' : Builder τ}
    (h : (registerTerminal name token).runFrom b = (.ok id, b')) :
    b'.nonTerminals = b.nonTerminals := by
  cases ht : b.hasTerminal name with
  | true => simp [registerTerminal, ht, Attempt.runFrom_bind] at h
  | false =>
    cases hn : b.hasNonTerminal name with
    | true => simp [registerTerminal, ht, hn, Attempt.runFrom_bind] at h
    | false =>
      cases hc : b.clash? token with
      | some existing => simp [registerTerminal, ht, hn, hc, Attempt.runFrom_bind] at h
      | none =>
        rw [registerTerminal_eq_ok ht hn hc] at h
        cases h
        rfl

theorem registerRule_eq_ok {symbols : List String} {action : List Template}
    (hs : symbols.isEmpty = false) (ha : action.isEmpty = false)
    (ht : b.hasTerminal name = false) :
    (registerRule name symbols action).runFrom b =
      (.ok (), { b with nonTerminals := withRule b.nonTerminals name ⟨symbols, action⟩ }) := by
  simp only [registerRule, hs, ha, registerNonTerminal, withRule, Attempt.runFrom_bind,
    Attempt.runFrom_get, ht, nonTerminalIndex?, Bool.false_eq_true, if_false]
  cases b.nonTerminals.findIdx? (·.1 == name) with
  | some i => rfl
  | none =>
    have h : (b.nonTerminals ++ [(name, [])]).modify b.nonTerminals.length
        (fun (name, rules) => (name, rules ++ [(⟨symbols, action⟩ : StagedRule)])) =
        b.nonTerminals ++ [(name, [⟨symbols, action⟩])] := by
      simp [List.modify_eq_take_drop]
    exact congrArg (fun l => (Except.ok (), { b with nonTerminals := l })) h

theorem registerRule_requires {symbols : List String} {action : List Template} {u : Unit}
    {b' : Builder τ} (h : (registerRule name symbols action).runFrom b = (.ok u, b')) :
    symbols.isEmpty = false ∧ action.isEmpty = false ∧ b.hasTerminal name = false := by
  cases hs : symbols.isEmpty with
  | true => simp [registerRule, hs] at h
  | false =>
    cases ha : action.isEmpty with
    | true => simp [registerRule, hs, ha] at h
    | false =>
      cases ht : b.hasTerminal name with
      | true =>
        simp [registerRule, hs, ha, registerNonTerminal, ht, Attempt.runFrom_bind] at h
      | false => exact ⟨rfl, rfl, rfl⟩

theorem registerRule_error {symbols : List String} {action : List Template} {e : GrammarError}
    {b' : Builder τ} (h : (registerRule name symbols action).runFrom b = (.error e, b')) :
    e = .emptyRule name ∨ e = .emptyAction name ∨ e = .nameConflict name := by
  cases hs : symbols.isEmpty with
  | true =>
    have h : GrammarError.emptyRule name = e ∧ b = b' := by simpa [registerRule, hs] using h
    exact .inl h.1.symm
  | false =>
    cases ha : action.isEmpty with
    | true =>
      have h : GrammarError.emptyAction name = e ∧ b = b' := by
        simpa [registerRule, hs, ha] using h
      exact .inr (.inl h.1.symm)
    | false =>
      cases ht : b.hasTerminal name with
      | true =>
        have h : GrammarError.nameConflict name = e ∧ b = b' := by
          simpa [registerRule, hs, ha, registerNonTerminal, ht, Attempt.runFrom_bind] using h
        exact .inr (.inr h.1.symm)
      | false =>
        rw [registerRule_eq_ok hs ha ht] at h
        cases h

theorem setStart_eq_ok (ht : b.hasTerminal name = false) :
    (setStart name).runFrom b = (.ok (), { b with start := some name }) := by
  simp only [setStart, ht, Attempt.runFrom_bind, Attempt.runFrom_get]
  rfl

theorem eq_of_setStart {u : Unit} {b' : Builder τ}
    (h : (setStart name).runFrom b = (.ok u, b')) : b' = { b with start := some name } := by
  cases ht : b.hasTerminal name with
  | true => simp [setStart, ht, Attempt.runFrom_bind] at h
  | false =>
    simp only [setStart, ht, Attempt.runFrom_bind, Attempt.runFrom_get] at h
    cases h
    rfl

end Builder

namespace GrammarDecl

/-- The nonterminals that the rules make up. -/
def grouped (rs : List RuleDecl) : List (String × List StagedRule) :=
  rs.foldl (fun nonTerminals r => Builder.withRule nonTerminals r.nonTerminal ⟨r.symbols, r.action⟩)
    []

theorem stageRules_eq_ok {b : Builder τ} {rs : List RuleDecl} (hb : b.nonTerminals = [])
    (h : ∀ r ∈ rs, r.symbols.isEmpty = false ∧ r.action.isEmpty = false ∧
      b.hasTerminal r.nonTerminal = false) :
    (stageRules rs).runFrom b = (.ok (), { b with nonTerminals := grouped rs }) := by
  have hfold (rs : List RuleDecl) (b : Builder τ)
      (h : ∀ r ∈ rs, r.symbols.isEmpty = false ∧ r.action.isEmpty = false ∧
        b.hasTerminal r.nonTerminal = false) :
      (stageRules rs).runFrom b = (.ok (), { b with nonTerminals := rs.foldl (fun nonTerminals r =>
        Builder.withRule nonTerminals r.nonTerminal ⟨r.symbols, r.action⟩) b.nonTerminals }) := by
    induction rs generalizing b with
    | nil => rfl
    | cons r rs ih =>
      obtain ⟨hs, ha, ht⟩ := h r List.mem_cons_self
      rw [stageRules, Attempt.runFrom_bind, Builder.registerRule_eq_ok hs ha ht]
      exact ih _ fun r hr => h r (List.mem_cons_of_mem _ hr)
  rw [hfold rs b h, hb]
  rfl

theorem stageRules_requires {b b' : Builder τ} {rs : List RuleDecl} {u : Unit}
    (h : (stageRules rs).runFrom b = (.ok u, b')) :
    ∀ r ∈ rs, r.symbols.isEmpty = false ∧ r.action.isEmpty = false ∧
      b.hasTerminal r.nonTerminal = false := by
  induction rs generalizing b with
  | nil => exact fun _ hr => nomatch hr
  | cons r rs ih =>
    obtain ⟨_, b₁, hr, hrs⟩ := Attempt.runFrom_bind_eq_ok_iff.mp h
    obtain ⟨hs, ha, ht⟩ := Builder.registerRule_requires hr
    rw [Builder.registerRule_eq_ok hs ha ht] at hr
    cases hr
    have hrest := ih hrs
    exact List.forall_mem_cons.mpr ⟨⟨hs, ha, ht⟩, hrest⟩

theorem stageRules_error {b b' : Builder τ} {rs : List RuleDecl} {e : GrammarError}
    (h : (stageRules rs).runFrom b = (.error e, b')) :
    ∃ name, e = .emptyRule name ∨ e = .emptyAction name ∨ e = .nameConflict name := by
  induction rs generalizing b with
  | nil => cases h
  | cons r rs ih =>
    rw [stageRules, Attempt.runFrom_bind] at h
    rcases hr : (Builder.registerRule r.nonTerminal r.symbols r.action).runFrom b with ⟨e' | u, b₁⟩
    · rw [hr] at h
      cases h
      exact ⟨_, Builder.registerRule_error hr⟩
    · rw [hr] at h
      exact ih h

end GrammarDecl

end ActionGrammar
