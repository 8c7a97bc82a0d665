import ActionGrammar.GrammarText.Token
import ActionGrammar.Proofs.Grammar.WellFormed
import ActionGrammar.Proofs.Parse.Leftmost
import ActionGrammar.Proofs.Parse.Recording

/-! # Positions of failures

Where the tokens do not match, the furthest test ends what a leftmost derivation
can produce, and nothing matched there: a terminal that does is followed by
another test, or else the parse ends behind it. A parse with tokens left over has
tested the last token that it matched.
-/

namespace ActionGrammar

namespace Grammar

variable {π τ : Type} [Token τ] {g : Grammar π τ} {tokens : List τ} {o : Option Nat}
  {es : List Event} {i m : Nat}

theorem reaches_of_isLUB (hm : IsLUB {i | g.VisitsAll tokens (.test i)} m) :
    g.Reaches tokens [] m := by
  rcases Set.eq_empty_or_nonempty {i | g.VisitsAll tokens (.test i)} with hnone | hsome
  · rw [hnone] at hm
    obtain rfl := hm.unique isLUB_empty
    exact reaches_start.nil
  · obtain ⟨n, hn⟩ := BddAbove.exists_isGreatest_of_nonempty hm.bddAbove hsome
    obtain rfl := hn.isLUB.unique hm
    have hvisit : g.VisitsAll tokens (.test n) := hn.1
    obtain ⟨id, -, hreach⟩ := (hvisit.reaches reaches_start).1 n rfl
    exact hreach.nil

theorem Transcript.le_of_testsFrom
    (h : g.Transcript tokens (.symbol (.nonTerminal g.start)) 0 o es)
    (hm : IsLUB {i | g.VisitsAll tokens (.test i)} m) : Event.TestsFrom es i → i ≤ m := by
  rintro ⟨n, id, hle, he⟩
  have hvisit : g.VisitsAll tokens (.test n) := by
    rcases he with he | he
    · exact h.visits _ he rfl
    · exact h.visits _ he rfl
  exact Nat.le_trans hle (hm.1 hvisit)

end Grammar

namespace Parser

open Grammar

variable {π τ : Type} [Token τ] [TokenValue π τ] {p : Parser π τ}

/-- The positions of a parse that fails on its tokens are accurate. Where no rule matches, the
tokens before the position are produced by a leftmost derivation, and each test at the position was
a mismatch. Where tokens are left over, those before the position are derived from the start, and
those before the furthest test are produced by a leftmost derivation. -/
theorem run_positions {b : Builder τ} {r : Registry π} (hb : b.build r = .ok p.grammar)
    (tokens : Array τ) (s : Store π) :
    (∀ m events t, p.run tokens s = ((.error (.notGenerated m), events), t) →
      m ≤ tokens.size ∧ p.grammar.Reaches tokens.toList [] m ∧ ∀ id, .shift id m ∉ events) ∧
    ∀ i m events t, p.run tokens s = ((.error (.trailingTokens i m), events), t) →
      i < tokens.size ∧ m ≤ tokens.size ∧ i ≤ m + 1 ∧
        p.grammar.Generates (tokens.toList.take i) ∧ p.grammar.Reaches tokens.toList [] m := by
  constructor
  · intro m events t h
    obtain ⟨hm, -⟩ := parse_error_reports (parse_of_run h)
    have hreach := reaches_of_isLUB hm
    obtain ⟨o, htranscript⟩ := run_transcript h .notGenerated
    refine ⟨by simpa using hreach.1, hreach, fun id hid => ?_⟩
    have hrules {nt : NonTerminal} {rs : List (Rule π)} (hrs : p.grammar.rules nt = .ok rs) :
        rs ≠ [] := Builder.rules_ne_nil_of_build hb hrs
    -- Had the terminal matched, it would be followed by a test, as the start does not match.
    rcases htranscript.testsFrom_of_shifts hrules ⟨id, hid⟩ with rfl | ht
    · obtain ⟨x, hx, ho⟩ := htranscript.achieves
      cases parse_error (parse_of_run h) with
      | notGenerated hn =>
        obtain rfl := hn.unique _ hx
        cases ho
      | cause hcause => cases hcause
    · have := htranscript.le_of_testsFrom hm ht
      omega
  · intro i m events t h
    obtain ⟨hm, -⟩ := parse_error_reports (parse_of_run h)
    have hreach := reaches_of_isLUB hm
    obtain ⟨o, htranscript⟩ := run_transcript h .trailingTokens
    cases parse_error (parse_of_run h) with
    | cause hcause => cases hcause
    | @trailing f _ _ hf hi =>
      obtain ⟨x, hx, ho⟩ := htranscript.achieves
      obtain rfl := hf.unique _ hx
      obtain ⟨hd, hy, hlen⟩ := hf.derives _ _ rfl
      refine ⟨hi, by simpa using hreach.1, ?_, ⟨f, hd, ?_⟩, hreach⟩
      · rcases Nat.eq_zero_or_pos i with rfl | hpos
        · exact Nat.zero_le _
        · have hshift := (htranscript.shifts i ho.symm).2 hpos
          have := htranscript.le_of_testsFrom hm (hshift.testsFrom (Nat.le_refl _))
          omega
      · rw [hlen, Nat.zero_add]
        exact List.prefix_iff_eq_take.mp hy

def twoInts : Parser Unit GrammarText.Token where
  grammar :=
    { terminals := #[⟨emptyStringName, none⟩, ⟨"int", some (.reference .int)⟩]
      nonTerminals := #[⟨"Pair", [⟨[.terminal ⟨1⟩, .terminal ⟨1⟩], [.result 0]⟩]⟩]
      start := ⟨0⟩ }
  limits := .standard
  isChecked := by cbv

def twoIntsBuilder : Builder GrammarText.Token where
  terminals := [(emptyStringName, none), ("int", some (.reference .int))]
  nonTerminals := [("Pair", [⟨["int", "int"], [.result 0]⟩])]
  start := none

/-- One integer is half of a pair, and behind two integers a third one is not tested. -/
theorem run_positions_twoInts :
    (∃ events t, (twoInts.run #[⟨.int, 0, 1, some (.int 1)⟩] ⟨#[]⟩ =
        ((.error (.notGenerated 1), events), t)) ∧
      twoInts.grammar.Reaches [⟨.int, 0, 1, some (.int 1)⟩] [] 1 ∧ ∀ id, .shift id 1 ∉ events) ∧
    twoInts.grammar.Generates [⟨.int, 0, 1, some (.int 1)⟩, ⟨.int, 2, 3, some (.int 2)⟩] := by
  have hb : twoIntsBuilder.build ⟨[]⟩ = .ok twoInts.grammar := rfl
  constructor
  · have h : twoInts.run #[⟨.int, 0, 1, some (.int 1)⟩] ⟨#[]⟩ =
        ((.error (.notGenerated 1), [.enter ⟨0⟩ 0, .attempt ⟨0⟩ 0 0, .shift ⟨1⟩ 0, .mismatch ⟨1⟩ 1,
          .backtrack ⟨0⟩ 0 0, .exit ⟨0⟩ false 0]), ⟨#[]⟩) := by
      cbv
    obtain ⟨-, hreach, hshift⟩ := (run_positions hb _ _).1 _ _ _ h
    exact ⟨_, _, h, hreach, hshift⟩
  · have h : twoInts.run #[⟨.int, 0, 1, some (.int 1)⟩, ⟨.int, 2, 3, some (.int 2)⟩,
          ⟨.int, 4, 5, some (.int 3)⟩] ⟨#[]⟩ =
        ((.error (.trailingTokens 2 1), [.enter ⟨0⟩ 0, .attempt ⟨0⟩ 0 0, .shift ⟨1⟩ 0, .shift ⟨1⟩ 1,
          .reduce ⟨0⟩ 0 (.int 1), .exit ⟨0⟩ true 2]), ⟨#[]⟩) := by
      cbv
    exact ((run_positions hb _ _).2 _ _ _ _ h).2.2.2.1

end Parser

end ActionGrammar
