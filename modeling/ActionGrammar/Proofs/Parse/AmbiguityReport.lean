import ActionGrammar.Proofs.Parse.Ambiguity
import ActionGrammar.Proofs.Parse.Answers
import ActionGrammar.Proofs.Parse.Leftmost
import ActionGrammar.Proofs.Parse.Recording

/-! # Reports of ambiguities

A parse reports two rules as ambiguous only where both derive some of the tokens
behind a leftmost derivation, and it gives no answer if it has met such rules:
wherever it entered a nonterminal, it has tried all rules, and all but one of
them failed.
-/

namespace ActionGrammar

namespace Grammar

variable {π τ : Type} [Token τ]

/-- The symbols derive some of the tokens from the position on. -/
def DerivesAt (g : Grammar π τ) (tokens : List τ) (ss : List Symbol) (i : Nat) : Prop :=
  ∃ f : Forest τ, g.Derives ss f ∧ f.yield <+: tokens.drop i

/-- The texts are those of a nonterminal that a leftmost derivation leads to, and of two of its
rules that both derive some of the tokens there. -/
def IsAmbiguous (g : Grammar π τ) (tokens : List τ) (name first second : String) (i : Nat) :
    Prop :=
  ∃ nt k k' r r', k < k' ∧ g.rule? nt k = some r ∧ g.rule? nt k' = some r' ∧
    r.isEpsilon = false ∧ r'.isEpsilon = false ∧ g.nonTerminalName nt = .ok name ∧
    g.production nt r = .ok first ∧ g.production nt r' = .ok second ∧
    g.DerivesAt tokens r.symbols i ∧ g.DerivesAt tokens r'.symbols i ∧
    g.Reaches tokens [.nonTerminal nt] i

variable {g : Grammar π τ} {tokens : List τ} {ss : List Symbol} {nt : NonTerminal} {i k : Nat}
  {r : Rule π} {es : List Event}

theorem Recognizes.derivesAt {x : Forest τ × Nat} (h : g.Recognizes tokens ss i (some x)) :
    g.DerivesAt tokens ss i := by
  obtain ⟨hd, hy, -⟩ := h.derives _ _ rfl
  exact ⟨x.1, hd, hy⟩

theorem Transcript.fails {o : Option Nat} {k' : Nat} {r' : Rule π}
    (h : g.Transcript tokens (.symbol (.nonTerminal g.start)) 0 o es) (hmem : .enter nt i ∈ es)
    (hk : k ≠ k') (hr : g.rule? nt k = some r) (hr' : g.rule? nt k' = some r')
    (he : r.isEpsilon = false) (he' : r'.isEpsilon = false) :
    g.Fails tokens es nt i k r ∨ g.Fails tokens es nt i k' r' := by
  obtain ⟨-, hfails | ⟨x, hx⟩⟩ := h.entered hr he hmem
  · exact .inl hfails
  · obtain ⟨-, hfails | ⟨x', hx'⟩⟩ := h.entered hr' he' hmem
    · exact .inr hfails
    · obtain ⟨_, hstart, -⟩ := h.achieves
      have hvisit : g.VisitsAll tokens (.expand nt i) := h.visits _ hmem rfl
      obtain ⟨_, hnt⟩ := hstart.of_visits hvisit rfl
      exact absurd (hnt.eq_of_match hr hr' he he' hx hx') hk

end Grammar

namespace Parser

open Grammar

variable {π τ : Type} [Token τ] [TokenValue π τ]

/-- An ambiguity that is reported is one of the grammar, at tokens that a leftmost derivation leads
to. A parse that gives an answer has met none: of two rules that are not the empty string alone it
has tried both wherever it entered their nonterminal, and one of them failed. -/
theorem run_ambiguous (p : Parser π τ) (tokens : Array τ) (s : Store π) :
    (∀ name first second i events t,
      p.run tokens s = ((.error (.ambiguous name first second i), events), t) →
      p.grammar.IsAmbiguous tokens.toList name first second i) ∧
    ∀ result events t, p.run tokens s = ((result, events), t) → IsAnswer result →
      ∀ nt i, .enter nt i ∈ events → ∀ k k' r r', k ≠ k' → p.grammar.rule? nt k = some r →
        p.grammar.rule? nt k' = some r' → r.isEpsilon = false → r'.isEpsilon = false →
        .attempt nt k i ∈ events ∧ .attempt nt k' i ∈ events ∧
          (p.grammar.Fails tokens.toList events nt i k r ∨
            p.grammar.Fails tokens.toList events nt i k' r') := by
  constructor
  · intro name first second i events t h
    obtain ⟨nt, k, k', r, r', x, x', hvisit, hk, hr, hr', he, he', hm, hm', htexts⟩ :=
      parse_error_reports (parse_of_run h)
    obtain ⟨hname, hfirst, hsecond⟩ := htexts
    have hreach := (Visits.reaches hvisit reaches_start).2 nt i rfl
    exact ⟨nt, k, k', r, r', hk, hr, hr', he, he', hname, hfirst, hsecond, hm.derivesAt,
      hm'.derivesAt, hreach⟩
  · intro result events t h ha nt i hmem k k' r r' hk hr hr' he he'
    obtain ⟨o, htranscript⟩ := run_transcript h ha
    refine ⟨(htranscript.entered hr he hmem).1, (htranscript.entered hr' he' hmem).1, ?_⟩
    exact htranscript.fails hmem hk hr hr' he he'

/-- The rule for names matches nothing before an integer, and a symbol is matched by it alone. -/
theorem run_ambiguous_optionalName :
    optionalName.grammar.IsAmbiguous [⟨.int, 0, 1, some (.int 1)⟩] "Label" "Label : Name"
      "Label : int" 0 ∧
    ∃ events t, optionalName.run #[⟨.symbol, 0, 1, none⟩] ⟨#[]⟩ = ((.ok (.int 1), events), t) ∧
      .attempt ⟨0⟩ 0 0 ∈ events ∧ .attempt ⟨0⟩ 1 0 ∈ events := by
  constructor
  · have h : optionalName.run #[⟨.int, 0, 1, some (.int 1)⟩] ⟨#[]⟩ =
        ((.error (.ambiguous "Label" "Label : Name" "Label : int" 0),
          [.enter ⟨0⟩ 0, .attempt ⟨0⟩ 0 0, .enter ⟨1⟩ 0, .attempt ⟨1⟩ 1 0, .mismatch ⟨2⟩ 0,
            .backtrack ⟨1⟩ 1 0, .reduce ⟨1⟩ 0 (.int 3), .exit ⟨1⟩ true 0, .reduce ⟨0⟩ 0 (.int 1),
            .attempt ⟨0⟩ 1 0, .shift ⟨1⟩ 0, .reduce ⟨0⟩ 1 (.int 2)]), ⟨#[]⟩) := by
      cbv
    exact (run_ambiguous optionalName _ _).1 _ _ _ _ _ _ h
  · have h : optionalName.run #[⟨.symbol, 0, 1, none⟩] ⟨#[]⟩ =
        ((.ok (.int 1),
          [.enter ⟨0⟩ 0, .attempt ⟨0⟩ 0 0, .enter ⟨1⟩ 0, .attempt ⟨1⟩ 1 0, .shift ⟨2⟩ 0,
            .reduce ⟨1⟩ 1 (.int 4), .exit ⟨1⟩ true 1, .reduce ⟨0⟩ 0 (.int 1), .attempt ⟨0⟩ 1 0,
            .mismatch ⟨1⟩ 0, .backtrack ⟨0⟩ 1 0, .exit ⟨0⟩ true 1]), ⟨#[]⟩) := by
      cbv
    obtain ⟨hfirst, hsecond, -⟩ := (run_ambiguous optionalName _ _).2 _ _ _ h .value ⟨0⟩ 0 (by simp)
      0 1 _ _ (by decide) rfl rfl rfl rfl
    exact ⟨_, _, h, hfirst, hsecond⟩

end Parser

end ActionGrammar
