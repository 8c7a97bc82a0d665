import ActionGrammar.Proofs.Grammar.Reorder
import ActionGrammar.Proofs.Parse.Answers
import ActionGrammar.Proofs.Parse.Soundness

/-! # Parsing with rules in another order

All rules of a nonterminal are tried, whatever comes first, and at most one of
them may match. What is recognized, visited and evaluated is thus the same with
rules in another order, up to the rules' numbers, and so is the outcome, up to
the identities of new objects.
-/

namespace ActionGrammar

variable {π τ : Type} {σ : NonTerminal → Equiv.Perm ℕ}

@[simp] theorem Forest.renumber_symm (f : Forest τ) :
    (f.renumber fun nt => (σ nt).symm).renumber σ = f := by
  induction f with
  | nil => rfl
  | empty rest ih => rw [renumber, renumber, ih]
  | token id x rest ih => rw [renumber, renumber, ih]
  | node nt k c rest ihc ih => rw [renumber, renumber, ihc, ih, Equiv.apply_symm_apply]

def Visit.renumber (σ : NonTerminal → Equiv.Perm ℕ) : Visit τ → Visit τ
  | test i => test i
  | expand nt i => expand nt i
  | reduce nt k c => reduce nt (σ nt k) (c.renumber σ)

namespace Grammar

variable [Token τ] {g g' : Grammar π τ} {tokens : List τ} {ss : List Symbol} {i k : Nat}
  {nt : NonTerminal} {o : Option (Forest τ × Nat)}

theorem Recognizes.renumber (hσ : Renumbers σ g g') (hε : g.OneEpsilon)
    (h : g.Recognizes tokens ss i o) :
    g'.Recognizes tokens ss i (o.map fun (f, j) => (f.renumber σ, j)) := by
  induction h with
  | nil => exact .nil
  | @empty _ _ o _ ih => cases o <;> exact .empty ih
  | @shift _ _ _ _ o hx hm _ ih => cases o <;> exact .shift hx (hσ.matches_iff.mpr hm) ih
  | mismatch hid hn => exact .mismatch hid fun x hx hm => hn x hx (hσ.matches_iff.mp hm)
  | @fail nt _ _ he _ ih =>
    refine .fail (fun k r hr => ?_) fun k r hr => ?_
    · exact he _ r ((hσ.symm.rule? nt k).trans hr)
    · exact ih _ r ((hσ.symm.rule? nt k).trans hr)
  | @rule nt k r c _ _ _ o hr he _ _ _ ihc ihn ih =>
    have hr' : g'.rule? nt (σ nt k) = some r := (hσ.rule? nt k).trans hr
    have hothers : ∀ k' r', g'.rule? nt k' = some r' → k' ≠ σ nt k → r'.isEpsilon = false →
        g'.Recognizes tokens r'.symbols _ none := fun k' r' hk hne he' =>
      ihn _ r' ((hσ.symm.rule? nt k').trans hk) (fun h => hne ((σ nt).symm_apply_eq.mp h)) he'
    cases o <;> exact .rule hr' he ihc hothers ih
  | @epsilon nt k r _ _ o hr he _ _ _ ihn ih =>
    have hr' : g'.rule? nt (σ nt k) = some r := (hσ.rule? nt k).trans hr
    have hlast : ∀ k' r', g'.rule? nt k' = some r' → r'.isEpsilon = true → k' ≤ σ nt k :=
      fun k' r' hk he' => Nat.le_of_eq ((hσ.oneEpsilon hε).eq hk hr' he' he)
    have hothers : ∀ k' r', g'.rule? nt k' = some r' → r'.isEpsilon = false →
        g'.Recognizes tokens r'.symbols _ none := fun k' r' hk he' =>
      ihn _ r' ((hσ.symm.rule? nt k').trans hk) he'
    cases o <;> exact .epsilon hr' he hlast hothers ih

theorem FallsBack.renumber (hσ : Renumbers σ g g') (hε : g.OneEpsilon)
    (h : g.FallsBack tokens nt k i) : g'.FallsBack tokens nt (σ nt k) i := by
  obtain ⟨r, hr, he⟩ := h.rule
  have hr' : g'.rule? nt (σ nt k) = some r := (hσ.rule? nt k).trans hr
  refine ⟨⟨r, hr', he⟩, fun hk he' => ?_, fun {k' r'} hk he' => ?_⟩
  · exact Nat.le_of_eq ((hσ.oneEpsilon hε).eq hk hr' he' he)
  · exact (h.others ((hσ.symm.rule? nt k').trans hk) he').renumber hσ hε

theorem Visits.renumber (hσ : Renumbers σ g g') (hε : g.OneEpsilon) {x : Visit τ}
    (h : g.Visits tokens ss i x) : g'.Visits tokens ss i (x.renumber σ) := by
  induction h with
  | test hid => exact .test hid
  | expand => exact .expand
  | @reduce nt k _ _ _ _ _ hr he hc =>
    exact .reduce ((hσ.rule? nt k).trans hr) he (hc.renumber hσ hε)
  | fallback hf => exact .fallback (hf.renumber hσ hε)
  | @nested nt k _ _ _ _ hr he _ ih => exact .nested ((hσ.rule? nt k).trans hr) he ih
  | behind hs _ ih => exact .behind (hs.renumber hσ hε) ih

theorem VisitsAll.renumber (hσ : Renumbers σ g g') (hε : g.OneEpsilon) {x : Visit τ}
    (h : g.VisitsAll tokens x) : g'.VisitsAll tokens (x.renumber σ) := by
  rw [VisitsAll, hσ.start]
  exact Visits.renumber hσ hε h

theorem Renumbers.test_iff (hσ : Renumbers σ g g') (hε : g.OneEpsilon) :
    g'.VisitsAll tokens (.test i) ↔ g.VisitsAll tokens (.test i) :=
  ⟨VisitsAll.renumber hσ.symm (hσ.oneEpsilon hε), VisitsAll.renumber hσ hε⟩

variable [TokenValue π τ] {s t : Store π} {f c : Forest τ} {vs : List Value}
  {result : Except ParseError Value}

theorem Evaluates.renumber (hσ : Renumbers σ g g') (h : g.Evaluates tokens ss s f vs t) :
    g'.Evaluates tokens ss s (f.renumber σ) vs t := by
  induction h with
  | nil => exact .nil
  | empty _ ih => exact .empty ih
  | token hx hm hv _ ih => exact .token hx (hσ.matches_iff.mpr hm) hv ih
  | @node nt k _ _ _ _ _ _ _ _ _ _ _ hr _ hact _ ihc ih =>
    exact .node ((hσ.rule? nt k).trans hr) ihc hact ih
  | abandon _ _ iha ih => exact .abandon iha ih

theorem AllReduce.renumber (hσ : Renumbers σ g g') (hε : g.OneEpsilon)
    (h : g.AllReduce tokens s) : g'.AllReduce tokens s := by
  intro nt k c hx
  have hx' := VisitsAll.renumber hσ.symm (hσ.oneEpsilon hε) hx
  obtain ⟨r, results, s', v, t, hr, hv, hact⟩ := h _ _ _ hx'
  refine ⟨r, results, s', v, t, (hσ.symm.rule? nt k).symm.trans hr, ?_, hact⟩
  simpa using hv.renumber hσ

theorem Answers.renumber (hσ : Renumbers σ g g') (hε : g.OneEpsilon)
    (h : g.Answers tokens s result t) : g'.Answers tokens s result t := by
  cases h with
  | value hf hv =>
    rw [← hσ.start] at hf hv
    exact .value (hf.renumber hσ hε) (hv.renumber hσ)
  | notGenerated hn hm =>
    rw [← hσ.start] at hn
    exact .notGenerated (hn.renumber hσ hε) (by simpa only [hσ.test_iff hε] using hm)
  | trailingTokens hf hlt hm =>
    rw [← hσ.start] at hf
    exact .trailingTokens (hf.renumber hσ hε) hlt (by simpa only [hσ.test_iff hε] using hm)

theorem Hindered.renumber (hσ : Renumbers σ g g') (hε : g.OneEpsilon)
    (h : g.Hindered tokens s) : g'.Hindered tokens s := by
  cases h with
  | @ambiguous nt k k' _ _ _ _ _ hx hne hr hr' he he' hm hm' =>
    exact .ambiguous (VisitsAll.renumber hσ hε hx) ((σ nt).injective.ne hne)
      ((hσ.rule? nt k).trans hr) ((hσ.rule? nt k').trans hr') he he' (hm.renumber hσ hε)
      (hm'.renumber hσ hε)
  | @eval nt k _ _ _ _ _ _ hx hr hv hact =>
    exact .eval (VisitsAll.renumber hσ hε hx) ((hσ.rule? nt k).trans hr) (hv.renumber hσ) hact

end Grammar

namespace Parser

variable [Token τ] [TokenValue π τ] [Renameable π] {p p' : Parser π τ}

/-- The order of the rules inside nonterminals does not matter to a parse without limits, as long as
no tree changes objects that are there before. -/
theorem parse_reorders {b : Builder τ} {r : Registry π} (hb : b.build r = .ok p.grammar)
    (hp : p.grammar.Reorders p'.grammar) (hε : p.grammar.OneEpsilon) (hfuel : p.limits.fuel = none)
    (hfuel' : p'.limits.fuel = none) {tokens : Array τ} {s : Store π} (hs : s.IsClosed)
    (hg : p.grammar.IsEquivariant tokens.toList s.identity) (hk : p.grammar.Keeps tokens.toList)
    (hdepth : ∀ n, ((p.parse tokens).runFrom s).1 ≠ .error (.recursionLimitExceeded n))
    (hdepth' : ∀ n, ((p'.parse tokens).runFrom s).1 ≠ .error (.recursionLimitExceeded n)) :
    Agree s.identity ((p.parse tokens).runFrom s) ((p'.parse tokens).runFrom s) := by
  obtain ⟨σ, hσ⟩ := hp.exists_renumbers
  have hc := Builder.isClosed_of_build hb
  have hε' := hσ.oneEpsilon hε
  rcases hrun : (p.parse tokens).runFrom s with ⟨result, t⟩
  rcases hrun' : (p'.parse tokens).runFrom s with ⟨result', t'⟩
  rw [hrun] at hdepth
  rw [hrun'] at hdepth'
  rcases parse_answers hc hfuel hrun hdepth with ⟨ha, hred⟩ | ⟨hh, e, rfl, he⟩
  · rcases parse_answers (hσ.isClosed hc) hfuel' hrun' hdepth' with ⟨ha', -⟩ | ⟨hh', -⟩
    · exact ha.agree hg hk hs (ha'.renumber hσ.symm hε')
    · exact absurd (hh'.renumber hσ.symm hε') (ha.not_hindered hg hk hs hred)
  · rcases parse_answers (hσ.isClosed hc) hfuel' hrun' hdepth' with
      ⟨ha', hred'⟩ | ⟨-, e', rfl, he'⟩
    · exact absurd hh ((ha'.renumber hσ.symm hε').not_hindered hg hk hs
        (hred'.renumber hσ.symm hε'))
    · exact .hindrance he he'

def listsBuilder : Builder GrammarText.Token where
  terminals := [(emptyStringName, none), ("int", some (.reference .int)),
    ("dot", some (.reference .dot))]
  nonTerminals := [("Ints", [⟨["int", "Ints", "dot"], [.result 1]⟩,
    ⟨["int", "Ints"], [.construct "List" [.result 0, .result 1]]⟩,
    ⟨[emptyStringName], [.construct "List" []]⟩])]
  start := none

def listsRegistry : Registry (List Value) := ⟨[⟨"Lists", [⟨⟨"List", []⟩, none, listOf, []⟩]⟩]⟩

def listsReversed : Parser (List Value) GrammarText.Token where
  grammar := lists.grammar.reverse
  limits := .standard
  isChecked := by cbv

theorem lists_oneEpsilon : lists.grammar.OneEpsilon where
  eq {nt k k' r r'} hr hr' he he' := by
    have h {nt : NonTerminal} {k : Nat} {r : Rule (List Value)}
        (hr : lists.grammar.rule? nt k = some r) (he : r.isEpsilon = true) : k = 2 := by
      obtain ⟨i⟩ := nt
      match i, k with
      | 0, 0 | 0, 1 =>
        cases hr
        exact nomatch he
      | 0, 2 => rfl
      | 0, k + 3 | i + 1, k => cases hr
    rw [h hr he, h hr' he']

/-- With the rules reversed, the list is made before the one that is abandoned. -/
theorem parse_reorders_lists : ∃ (t t' : Store (List Value)) (r : Renaming),
    (lists.parse #[⟨.int, 0, 1, some (.int 1)⟩]).runFrom ⟨#[]⟩ =
      (.ok (.object ⟨2, ⟨"list"⟩⟩), t) ∧
    (listsReversed.parse #[⟨.int, 0, 1, some (.int 1)⟩]).runFrom ⟨#[]⟩ =
      (.ok (.object ⟨1, ⟨"list"⟩⟩), t') ∧ t.Renamed r t' ∧ r 2 1 := by
  have h : (lists.parse #[⟨.int, 0, 1, some (.int 1)⟩]).runFrom ⟨#[]⟩ =
      (.ok (.object ⟨2, ⟨"list"⟩⟩), ⟨#[[], [], [.int 1, .object ⟨1, ⟨"list"⟩⟩]]⟩) := by
    cbv
  have h' : (listsReversed.parse #[⟨.int, 0, 1, some (.int 1)⟩]).runFrom ⟨#[]⟩ =
      (.ok (.object ⟨1, ⟨"list"⟩⟩), ⟨#[[], [.int 1, .object ⟨0, ⟨"list"⟩⟩], []]⟩) := by
    cbv
  have hg := lists_isFunctional [⟨.int, 0, 1, some (.int 1)⟩]
    (Store.identity (⟨#[]⟩ : Store (List Value)))
  have hp : lists.grammar.Reorders listsReversed.grammar := lists.grammar.reorders_reverse
  have hagree := parse_reorders (b := listsBuilder) (r := listsRegistry) rfl hp
    lists_oneEpsilon rfl rfl (fun i p hp => by simp at hp) hg.isEquivariant
    hg.keeps (fun n => by simp [h]) (fun n => by simp [h'])
  rw [h, h'] at hagree
  cases hagree with
  | value _ ht hv =>
    cases hv with
    | object hij => exact ⟨_, _, _, h, h', ht, hij⟩

end Parser

end ActionGrammar
