import ActionGrammar.Proofs.Parse.Commitment
import ActionGrammar.Proofs.Parse.Visits

/-! # Answers

Apart from its limits, a parse gives an answer, a value or how far the tokens
go, or it is hindered by an ambiguity or by an action that fails. Where no tree
changes objects that are there before, answers agree up to a renaming of new
objects, and a parse that can be answered is not hindered.
-/

namespace ActionGrammar

variable {π τ : Type}

def ParseError.IsHindrance : ParseError → Prop
  | .ambiguous _ _ _ _ | .eval _ => True
  | _ => False

/-- The outcomes of two parses agree: values and stores up to a renaming that extends `base`, how
far the tokens go exactly, and hindrances in being one. -/
inductive Agree [Renameable π] (base : Renaming) :
    Except ParseError Value × Store π → Except ParseError Value × Store π → Prop
  | value {r : Renaming} {v w : Value} {t u : Store π} : base ≤ r → t.Renamed r u → v.Renamed r w →
      Agree base (.ok v, t) (.ok w, u)
  | notGenerated {m : Nat} {t u : Store π} :
      Agree base (.error (.notGenerated m), t) (.error (.notGenerated m), u)
  | trailingTokens {i m : Nat} {t u : Store π} :
      Agree base (.error (.trailingTokens i m), t) (.error (.trailingTokens i m), u)
  | hindrance {e e' : ParseError} {t u : Store π} : e.IsHindrance → e'.IsHindrance →
      Agree base (.error e, t) (.error e', u)

namespace Grammar

variable [Token τ] [TokenValue π τ]

inductive Answers (g : Grammar π τ) (tokens : List τ) (s : Store π) :
    Except ParseError Value → Store π → Prop
  | value {f : Forest τ} {v : Value} {t : Store π} :
      g.Recognizes tokens [.nonTerminal g.start] 0 (some (f, tokens.length)) →
      g.Evaluates tokens [.nonTerminal g.start] s f [v] t → Answers g tokens s (.ok v) t
  | notGenerated {m : Nat} {t : Store π} :
      g.Recognizes tokens [.nonTerminal g.start] 0 none →
      IsLUB {i | g.VisitsAll tokens (.test i)} m → Answers g tokens s (.error (.notGenerated m)) t
  | trailingTokens {f : Forest τ} {i m : Nat} {t : Store π} :
      g.Recognizes tokens [.nonTerminal g.start] 0 (some (f, i)) → i < tokens.length →
      IsLUB {i | g.VisitsAll tokens (.test i)} m →
      Answers g tokens s (.error (.trailingTokens i m)) t

/-- On its way a parse meets two rules that match, or an action that fails. -/
inductive Hindered (g : Grammar π τ) (tokens : List τ) (s : Store π) : Prop
  | ambiguous {nt : NonTerminal} {k k' : Nat} {r r' : Rule π} {i : Nat} {x x' : Forest τ × Nat} :
      g.VisitsAll tokens (.expand nt i) → k ≠ k' → g.rule? nt k = some r →
      g.rule? nt k' = some r' → r.isEpsilon = false → r'.isEpsilon = false →
      g.Recognizes tokens r.symbols i (some x) → g.Recognizes tokens r'.symbols i (some x') →
      Hindered g tokens s
  | eval {nt : NonTerminal} {k : Nat} {r : Rule π} {c : Forest τ} {results : List Value}
      {s' t : Store π} {cause : EvalError} :
      g.VisitsAll tokens (.reduce nt k c) → g.rule? nt k = some r →
      g.Evaluates tokens r.symbols s c results s' →
      (Resolved.evalAction (r.inputs results) r.action).runFrom s' = (.error cause, t) →
      Hindered g tokens s

section

variable {g : Grammar π τ} {tokens : List τ} {ss : List Symbol} {o : Option (Forest τ × Nat)}
  {i : Nat}

omit [TokenValue π τ] in
/-- Where something is found, or found not to match, that also holds of all that is expanded on the
way. -/
theorem Recognizes.of_visits {x : Visit τ} (hx : g.Visits tokens ss i x) :
    ∀ {o nt j}, x = .expand nt j → g.Recognizes tokens ss i o →
      ∃ o', g.Recognizes tokens [.nonTerminal nt] j o' := by
  induction hx with
  | test => rintro _ _ _ ⟨⟩
  | expand =>
    rintro o nt j ⟨⟩ h
    rcases h.split with ⟨h, -⟩ | ⟨_, _, _, h, -⟩
    · exact ⟨_, h⟩
    · exact ⟨_, h⟩
  | reduce => rintro _ _ _ ⟨⟩
  | fallback => rintro _ _ _ ⟨⟩
  | @nested nt k r _ _ _ hr he _ ih =>
    rintro o nt' j rfl h
    cases h with
    | fail _ hn => exact ih rfl (hn k r hr)
    | @rule _ k' _ _ _ _ _ _ hr' _ hc hn _ =>
      by_cases hk : k = k'
      · subst hk
        obtain rfl := Option.some.inj (hr.symm.trans hr')
        exact ih rfl hc
      · exact ih rfl (hn k r hr hk he)
    | epsilon _ _ _ hn _ => exact ih rfl (hn k r hr he)
  | behind hs _ ih =>
    rintro o nt j rfl h
    rcases h.split with ⟨hs', -⟩ | ⟨_, _, _, hs', h, -⟩
    · exact nomatch hs.unique _ hs'
    · cases hs.unique _ hs'
      exact ih rfl h

omit [TokenValue π τ] in
theorem Recognizes.eq_of_match {nt : NonTerminal} {k k' : Nat} {r r' : Rule π}
    {x x' : Forest τ × Nat} (h : g.Recognizes tokens [.nonTerminal nt] i o)
    (hr : g.rule? nt k = some r) (hr' : g.rule? nt k' = some r') (he : r.isEpsilon = false)
    (he' : r'.isEpsilon = false) (hm : g.Recognizes tokens r.symbols i (some x))
    (hm' : g.Recognizes tokens r'.symbols i (some x')) : k = k' := by
  cases h with
  | fail _ hn => exact nomatch hm.unique _ (hn k r hr)
  | @rule _ k'' _ _ _ _ _ _ _ _ _ hn _ =>
    have heq {k : Nat} {r : Rule π} {x : Forest τ × Nat} (hr : g.rule? nt k = some r)
        (he : r.isEpsilon = false) (hm : g.Recognizes tokens r.symbols i (some x)) : k = k'' := by
      by_contra hk
      exact nomatch hm.unique _ (hn k r hr hk he)
    rw [heq hr he hm, heq hr' he' hm']
  | epsilon _ _ _ hn _ => exact nomatch hm.unique _ (hn k r hr he)

variable [Renameable π] {s t u : Store π} {result result' : Except ParseError Value}

theorem Evaluates.agree {f : Forest τ} {vs ws : List Value} (hg : g.IsEquivariant tokens s.identity)
    (hk : g.Keeps tokens) (hs : s.IsClosed) (h : g.Evaluates tokens ss s f vs t)
    (h' : g.Evaluates tokens ss s f ws u) :
    ∃ r, s.identity ≤ r ∧ t.Renamed r u ∧ Resolved.AllRenamed r vs ws :=
  (h.commits hk).agree hg s.identity.le_refl hs.renamed (h'.commits hk)

theorem Answers.agree (hg : g.IsEquivariant tokens s.identity) (hk : g.Keeps tokens)
    (hs : s.IsClosed) (h : g.Answers tokens s result t) (h' : g.Answers tokens s result' u) :
    Agree s.identity (result, t) (result', u) := by
  cases h with
  | value hf hv =>
    cases h' with
    | value hf' hv' =>
      cases hf.unique _ hf'
      obtain ⟨r, hr, htu, hvw⟩ := hv.agree hg hk hs hv'
      cases hvw with
      | cons hvw => exact .value hr htu hvw
    | notGenerated hn => exact nomatch hf.unique _ hn
    | trailingTokens hf' hlt =>
      cases hf.unique _ hf'
      exact absurd hlt (Nat.lt_irrefl _)
  | notGenerated hn hm =>
    cases h' with
    | value hf => exact nomatch hn.unique _ hf
    | notGenerated _ hm' =>
      rw [hm.unique hm']
      exact .notGenerated
    | trailingTokens hf => exact nomatch hn.unique _ hf
  | trailingTokens hf hlt hm =>
    cases h' with
    | value hf' =>
      cases hf.unique _ hf'
      exact absurd hlt (Nat.lt_irrefl _)
    | notGenerated hn => exact nomatch hf.unique _ hn
    | trailingTokens hf' _ hm' =>
      cases hf.unique _ hf'
      rw [hm.unique hm']
      exact .trailingTokens

theorem Answers.not_hindered (hg : g.IsEquivariant tokens s.identity) (hk : g.Keeps tokens)
    (hs : s.IsClosed) (h : g.Answers tokens s result t) (ha : g.AllReduce tokens s) :
    ¬ g.Hindered tokens s := by
  rintro (⟨hx, hne, hr, hr', he, he', hm, hm'⟩ | ⟨hx, hr, hv, hact⟩)
  · obtain ⟨o, ho⟩ : ∃ o, g.Recognizes tokens [.nonTerminal g.start] 0 o := by
      cases h with
      | value hf => exact ⟨_, hf⟩
      | notGenerated hn => exact ⟨_, hn⟩
      | trailingTokens hf => exact ⟨_, hf⟩
    obtain ⟨o', ho'⟩ := ho.of_visits hx rfl
    exact hne (ho'.eq_of_match hr hr' he he' hm hm')
  · obtain ⟨r, results, s', v, t', hr', hv', hact'⟩ := ha _ _ _ hx
    obtain rfl := Option.some.inj (hr'.symm.trans hr)
    obtain ⟨ρ, hρ, hst, hres⟩ := hv'.agree hg hk hs hv
    obtain ⟨w, u, -, hw, -⟩ := Resolved.follows_evalAction (hg.actions hr) hρ hst
      (Rule.inputs_renamed r hres) v t' hact'
    exact nomatch hw.symm.trans hact

end

end Grammar

namespace Parser

variable [Token τ] [TokenValue π τ] {p : Parser π τ} {tokens : Array τ} {s t : Store π}
  {result : Except ParseError Value}

/-- A parse without limits gives an answer or is hindered. -/
theorem parse_answers (hc : p.grammar.IsClosed) (hfuel : p.limits.fuel = none)
    (h : (p.parse tokens).runFrom s = (result, t))
    (hdepth : ∀ n, result ≠ .error (.recursionLimitExceeded n)) :
    (p.grammar.Answers tokens.toList s result t ∧ p.grammar.AllReduce tokens.toList s) ∨
      p.grammar.Hindered tokens.toList s ∧ ∃ e, result = .error e ∧ e.IsHindrance := by
  cases result with
  | ok v =>
    obtain ⟨f, hf, hv⟩ := parse_ok h
    exact .inl ⟨.value (by simpa using hf) hv, parse_ok_reduces h⟩
  | error e =>
    have hrep := parse_error_reports h
    cases parse_error h with
    | notGenerated hn => exact .inl ⟨.notGenerated hn hrep.1, hrep.2⟩
    | trailing hf hlt => exact .inl ⟨.trailingTokens hf (by simpa using hlt) hrep.1, hrep.2⟩
    | cause hcause =>
      cases hcause with
      | fuel hn => exact nomatch hfuel.symm.trans hn
      | recursion => exact absurd rfl (hdepth _)
      | eval =>
        obtain ⟨nt, k, r, c, results, s', t, hx, hr, hv, hact⟩ := hrep
        exact .inr ⟨.eval hx hr hv hact, _, rfl, trivial⟩
      | ambiguous =>
        obtain ⟨nt, k, k', r, r', x, x', hx, hlt, hr, hr', he, he', hm, hm', -⟩ := hrep
        exact .inr ⟨.ambiguous hx (Nat.ne_of_lt hlt) hr hr' he he' hm hm', _, rfl, trivial⟩
      | fault hn =>
        exact absurd ⟨hc, fun s hs => List.mem_singleton.mp hs ▸ hc.start⟩ hn

end Parser

end ActionGrammar
