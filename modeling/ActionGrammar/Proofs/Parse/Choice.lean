import ActionGrammar.Proofs.Parse.Engine

/-! # The choice of a rule

Where a nonterminal is matched, one of its rules is chosen: the only one that
matches, or the last one that is the empty string alone. Of two rules with the
same symbols only the latter kind is ever chosen.
-/

namespace ActionGrammar

variable {π τ : Type}

/-- The nonterminals of a forest that begins at the position, each with the number of its rule and
with the position where it begins. -/
def Forest.uses : Nat → Forest τ → List (NonTerminal × Nat × Nat)
  | _, nil => []
  | i, empty rest => rest.uses i
  | i, token _ _ rest => rest.uses (i + 1)
  | i, node nt k children rest =>
    (nt, k, i) :: (children.uses i ++ rest.uses (i + children.yield.length))

namespace Grammar

variable [Token τ]

structure OnlyMatch (g : Grammar π τ) (tokens : List τ) (nt : NonTerminal) (k i : Nat) : Prop where
  rule : ∃ r found, g.rule? nt k = some r ∧ r.isEpsilon = false ∧
    g.Recognizes tokens r.symbols i (some found)
  others : ∀ {k' r'}, g.rule? nt k' = some r' → k' ≠ k → r'.isEpsilon = false →
    g.Recognizes tokens r'.symbols i none

/-- No rule of the nonterminal matches at the position, other than as the empty string alone, and
the rule is the last one of these. -/
structure FallsBack (g : Grammar π τ) (tokens : List τ) (nt : NonTerminal) (k i : Nat) : Prop where
  rule : ∃ r, g.rule? nt k = some r ∧ r.isEpsilon = true
  last : ∀ {k' r'}, g.rule? nt k' = some r' → r'.isEpsilon = true → k' ≤ k
  others : ∀ {k' r'}, g.rule? nt k' = some r' → r'.isEpsilon = false →
    g.Recognizes tokens r'.symbols i none

def Chooses (g : Grammar π τ) (tokens : List τ) (nt : NonTerminal) (k i : Nat) : Prop :=
  g.OnlyMatch tokens nt k i ∨ g.FallsBack tokens nt k i

variable {g : Grammar π τ} {tokens : List τ} {nt : NonTerminal} {k k' i : Nat} {r r' : Rule π}

theorem FallsBack.not_onlyMatch (h : g.FallsBack tokens nt k i) :
    ¬ g.OnlyMatch tokens nt k' i := by
  intro h'
  obtain ⟨r', found, hr', he', hm⟩ := h'.rule
  exact nomatch hm.unique _ (h.others hr' he')

theorem FallsBack.eq_of_chooses (h : g.FallsBack tokens nt k i) (h' : g.Chooses tokens nt k' i) :
    k = k' := by
  obtain ⟨r, hr, he⟩ := h.rule
  rcases h' with h' | h'
  · exact absurd h' h.not_onlyMatch
  · obtain ⟨r', hr', he'⟩ := h'.rule
    exact Nat.le_antisymm (h'.last hr he) (h.last hr' he')

theorem Chooses.fallsBack (h : g.Chooses tokens nt k i) (hr : g.rule? nt k = some r)
    (hr' : g.rule? nt k' = some r') (hk : k ≠ k') (hs : r.symbols = r'.symbols) :
    g.FallsBack tokens nt k i := by
  rcases h with h | h
  · obtain ⟨r₁, found, hr₁, he, hm⟩ := h.rule
    obtain rfl := Option.some.inj (hr.symm.trans hr₁)
    have he' : r'.isEpsilon = false := by rwa [Rule.isEpsilon, ← hs]
    have hn := h.others hr' (Ne.symm hk) he'
    rw [← hs] at hn
    cases hm.unique _ hn
  · exact h

/-- What is found only uses rules that are chosen. -/
theorem Recognizes.chooses {ss : List Symbol} {o : Option (Forest τ × Nat)}
    (h : g.Recognizes tokens ss i o) :
    ∀ f j, o = some (f, j) → ∀ nt k pos, (nt, k, pos) ∈ f.uses i → g.Chooses tokens nt k pos := by
  induction h with
  | nil =>
    rintro f j ⟨⟩ nt k pos hu
    exact nomatch hu
  | empty _ ih =>
    intro f j ho nt k pos hu
    obtain ⟨⟨f', j'⟩, rfl, ⟨⟩⟩ := Option.map_eq_some_iff.mp ho
    exact ih _ _ rfl nt k pos hu
  | shift _ _ _ ih =>
    intro f j ho nt k pos hu
    obtain ⟨⟨f', j'⟩, rfl, ⟨⟩⟩ := Option.map_eq_some_iff.mp ho
    exact ih _ _ rfl nt k pos hu
  | mismatch => rintro f j ⟨⟩
  | fail => rintro f j ⟨⟩
  | rule hr he hc hn _ ihr _ ih =>
    intro f j ho nt k pos hu
    obtain ⟨⟨f', j'⟩, rfl, ⟨⟩⟩ := Option.map_eq_some_iff.mp ho
    obtain ⟨-, -, rfl⟩ := hc.derives _ _ rfl
    rcases List.mem_cons.mp hu with hu | hu
    · cases hu
      exact .inl ⟨⟨_, _, hr, he, hc⟩, hn _ _⟩
    · rcases List.mem_append.mp hu with hu | hu
      · exact ihr _ _ rfl nt k pos hu
      · exact ih _ _ rfl nt k pos hu
  | epsilon hr he hl hn _ _ ih =>
    intro f j ho nt k pos hu
    obtain ⟨⟨f', j'⟩, rfl, ⟨⟩⟩ := Option.map_eq_some_iff.mp ho
    rcases List.mem_cons.mp hu with hu | hu
    · cases hu
      exact .inr ⟨⟨_, hr, he⟩, hl _ _, hn _ _⟩
    · exact ih _ _ rfl nt k pos hu

end Grammar

namespace Parser

variable [Token τ] [TokenValue π τ] {p : Parser π τ} {tokens : Array τ} {nt : NonTerminal}
  {i k : Nat} {rules : List (Rule π)} {outcome : Outcome}

theorem Considered.onlyMatch {s t : Store π} {m : Match} (hrules : p.grammar.rules nt = .ok rules)
    (h : p.Considered tokens i s ((List.range rules.length).zip rules) outcome t)
    (ho : outcome.matched = some m) : p.grammar.OnlyMatch tokens.toList nt m.rule i := by
  have hm := h.matched
  rw [ho] at hm
  obtain ⟨r, c, -, -, -, hr, he, hc, hother, -⟩ := hm
  exact ⟨⟨r, _, (mem_numbered_iff hrules).mp hr, he, hc⟩,
    fun {k' r'} hr' => hother (k', r') ((mem_numbered_iff hrules).mpr hr')⟩

theorem Considered.fallsBack {s t : Store π} (hrules : p.grammar.rules nt = .ok rules)
    (h : p.Considered tokens i s ((List.range rules.length).zip rules) outcome t)
    (ho : outcome.matched = none) :
    p.grammar.FallsBack tokens.toList nt k i ↔ outcome.epsilon = some k := by
  have hmem {k : Nat} {r : Rule π} := mem_numbered_iff (k := k) (r := r) hrules
  have hm := h.matched
  rw [ho] at hm
  have hε := h.epsilon
  constructor
  · intro hf
    obtain ⟨r, hr, he⟩ := hf.rule
    cases hk : outcome.epsilon with
    | none =>
      rw [hk] at hε
      exact absurd (hε _ (hmem.mpr hr)) (by simp [he])
    | some k' =>
      rw [hk] at hε
      obtain ⟨⟨r', hr', he'⟩, hlast⟩ := hε
      rw [Nat.le_antisymm (hf.last (hmem.mp hr') he') (hlast _ (hmem.mpr hr) he)]
  · intro hk
    rw [hk] at hε
    obtain ⟨⟨r, hr, he⟩, hlast⟩ := hε
    exact ⟨⟨r, hmem.mp hr, he⟩, fun hr' => hlast _ (hmem.mpr hr'), fun hr' => hm.1 _ (hmem.mpr hr')⟩

/-- However many rules an expansion has tried, the rules that it looks up by their numbers, for an
ambiguity or for the empty string, are among those of the nonterminal. -/
theorem tryRules_lookup {room : Nat} {run : Run π} {done rest : List (Nat × Rule π)}
    (hrules : p.grammar.rules nt = .ok rules)
    (hcut : (List.range rules.length).zip rules = done ++ rest) :
    (p.tryRules tokens (p.expand tokens room) nt i rules ⟨none, none⟩ done).Ensures run
      (fun outcome _ => (∀ m, outcome.matched = some m → ∃ r, rules[m.rule]? = some r) ∧
        ∀ k, outcome.epsilon = some k → ∃ r, rules[k]? = some r)
      fun _ => True := by
  have hmem {kr : Nat × Rule π} (h : kr ∈ done) : rules[kr.1]? = some kr.2 :=
    mem_range_zip.mp (hcut ▸ List.mem_append_left rest h)
  have hrule : ∀ kr ∈ done, p.grammar.rule? nt kr.1 = some kr.2 := fun kr h => by
    rw [Grammar.rule?_eq_getElem? hrules, hmem h]
  have hlt : done.Pairwise fun a b => a.1 < b.1 :=
    (List.pairwise_append.mp (hcut ▸ pairwise_range_zip rules)).1
  apply (tryRules_ensures (expands_expand p tokens room) hrules done (List.nil_append done ▸ hrule)
    (List.nil_append done ▸ hlt) considered_nil).mono _ fun _ _ => trivial
  intro outcome run' h
  constructor
  · intro m hm
    have hmatched := h.matched
    rw [hm] at hmatched
    obtain ⟨r, -, -, -, -, hr, -⟩ := hmatched
    exact ⟨r, hmem (List.nil_append done ▸ hr)⟩
  · intro k hk
    have hepsilon := h.epsilon
    rw [hk] at hepsilon
    obtain ⟨⟨r, hr, -⟩, -⟩ := hepsilon
    exact ⟨r, hmem (List.nil_append done ▸ hr)⟩

end Parser

end ActionGrammar
