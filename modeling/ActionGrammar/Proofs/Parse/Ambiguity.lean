import ActionGrammar.Proofs.Parse.Predictive

/-! # Ambiguities of LL(1) grammars

A parse tries all rules of a nonterminal and does not look at what may follow
it. Two rules of an LL(1) grammar can thus both match: one that matches no
tokens, and one that matches tokens which cannot follow the nonterminal. The
empty string alone is tried last, so the first rule is another one.
-/

namespace ActionGrammar

namespace Grammar

variable {π τ : Type} [Token τ] {g : Grammar π τ} {tokens : List τ} {nt : NonTerminal}
  {k k' i : Nat} {r r' : Rule π}

/-- From position `i`, the first rule can match nothing, though it is not the empty string alone,
and the second one begins with the next token, which cannot follow the nonterminal. -/
structure Overlap (g : Grammar π τ) (tokens : List τ) (nt : NonTerminal) (i : Nat)
    (r r' : Rule π) : Prop where
  nullable : g.Nullable r.symbols
  not_isEpsilon : r.isEpsilon = false
  not_follow : ∃ x a, tokens[i]? = some x ∧ g.Matches a x ∧ g.First r'.symbols a ∧
    ¬ g.Follow nt (some a)

def OverlapNamed (g : Grammar π τ) (tokens : List τ) (name first second : String) (i : Nat) :
    Prop :=
  ∃ nt k k' r r', k < k' ∧ g.rule? nt k = some r ∧ g.rule? nt k' = some r' ∧
    g.nonTerminalName nt = .ok name ∧ g.production nt r = .ok first ∧
    g.production nt r' = .ok second ∧ (g.Overlap tokens nt i r r' ∨ g.Overlap tokens nt i r' r)

theorem NullableIsEpsilon.not_overlap (hε : g.NullableIsEpsilon) (hk : k ≠ k')
    (hr : g.rule? nt k = some r) (hr' : g.rule? nt k' = some r') :
    ¬ g.Overlap tokens nt i r r' := fun h =>
  Bool.false_ne_true (h.not_isEpsilon.symm.trans (hε hr hr' hk h.nullable))

theorem Recognizes.first {ss : List Symbol} {f : Forest τ} {j : Nat}
    (h : g.Recognizes tokens ss i (some (f, j))) (hf : f.yield ≠ []) :
    ∃ x a, tokens[i]? = some x ∧ g.Matches a x ∧ g.First ss a := by
  obtain ⟨hd, hy, -⟩ := h.derives _ _ rfl
  obtain ⟨x, xs, hxs⟩ := List.exists_cons_of_ne_nil hf
  obtain ⟨a, ha, hx⟩ := hd.first hxs
  rw [hxs, cons_prefix_drop_iff] at hy
  exact ⟨x, a, hy.1, hx, ha⟩

/-- Of two rules of an LL(1) grammar that both match, one matches nothing. -/
theorem IsLL1.overlap (hll : g.IsLL1) (hone : g.MatchedOnce tokens) (hk : k ≠ k')
    (hr : g.rule? nt k = some r) (hr' : g.rule? nt k' = some r') (he : r.isEpsilon = false)
    (he' : r'.isEpsilon = false) {x x' : Forest τ × Nat}
    (hm : g.Recognizes tokens r.symbols i (some x))
    (hm' : g.Recognizes tokens r'.symbols i (some x')) :
    g.Overlap tokens nt i r r' ∨ g.Overlap tokens nt i r' r := by
  obtain ⟨f, j⟩ := x
  obtain ⟨f', j'⟩ := x'
  have hd := (hm.derives _ _ rfl).1
  have hd' := (hm'.derives _ _ rfl).1
  by_cases hf : f.yield = []
  · have hn := hd.nullable hf
    have hf' : f'.yield ≠ [] := fun hf' => hk (hll.nullable_unique hr hr' hn (hd'.nullable hf'))
    obtain ⟨x, a, hx, ha, hfirst⟩ := hm'.first hf'
    exact .inl ⟨hn, he, x, a, hx, ha, hfirst, hll.first_not_follow hr hr' hk hn hfirst⟩
  · obtain ⟨x, a, hx, ha, hfirst⟩ := hm.first hf
    by_cases hf' : f'.yield = []
    · have hn := hd'.nullable hf'
      exact .inr ⟨hn, he', x, a, hx, ha, hfirst, hll.first_not_follow hr' hr hk.symm hn hfirst⟩
    · obtain ⟨x', a', hx', ha', hfirst'⟩ := hm'.first hf'
      obtain rfl := Option.some.inj (hx.symm.trans hx')
      obtain rfl := hone x (List.mem_of_getElem? hx) a a' ha ha'
      exact absurd (hll.first_disjoint hr hr' hfirst hfirst') hk

end Grammar

namespace Parser

variable {π τ : Type} [Token τ] [TokenValue π τ] {p : Parser π τ} {tokens : Array τ}

/-- With an LL(1) grammar a parse is ambiguous only where a rule that matches nothing, and is not
the empty string alone, stands beside a rule that matches tokens which cannot follow. It is never
ambiguous if beside other rules only the empty string alone derives the empty string. -/
theorem parse_overlap (hll : p.grammar.IsLL1) (hone : p.grammar.MatchedOnce tokens.toList)
    (s : Store π) :
    (∀ name first second i,
      ((p.parse tokens).runFrom s).1 = .error (.ambiguous name first second i) →
      p.grammar.OverlapNamed tokens.toList name first second i) ∧
    (p.grammar.NullableIsEpsilon → ∀ name first second i,
      ((p.parse tokens).runFrom s).1 ≠ .error (.ambiguous name first second i)) := by
  have h : ∀ name first second i,
      ((p.parse tokens).runFrom s).1 = .error (.ambiguous name first second i) →
      p.grammar.OverlapNamed tokens.toList name first second i := by
    intro name first second i he
    cases parse_error (Prod.ext he rfl) with
    | cause hcause =>
      cases hcause with
      | ambiguous hk hr hr' he he' hm hm' hn hf hs =>
        have ho := hll.overlap hone (Nat.ne_of_lt hk) hr hr' he he' hm hm'
        exact ⟨_, _, _, _, _, hk, hr, hr', hn, hf, hs, ho⟩
  refine ⟨h, fun hε name first second i he => ?_⟩
  obtain ⟨nt, k, k', r, r', hk, hr, hr', -, -, -, ho | ho⟩ := h name first second i he
  · exact hε.not_overlap (Nat.ne_of_lt hk) hr hr' ho
  · exact hε.not_overlap (Nat.ne_of_gt hk) hr' hr ho

def optionalName : Parser Unit GrammarText.Token where
  grammar :=
    { terminals := #[⟨emptyStringName, none⟩, ⟨"int", some (.reference .int)⟩,
        ⟨"symbol", some (.reference .symbol)⟩]
      nonTerminals := #[
        ⟨"Label", [⟨[.nonTerminal ⟨1⟩], [.constant (.int 1)]⟩,
          ⟨[.terminal ⟨1⟩], [.constant (.int 2)]⟩]⟩,
        ⟨"Name", [⟨[.terminal ⟨0⟩], [.constant (.int 3)]⟩,
          ⟨[.terminal ⟨2⟩], [.constant (.int 4)]⟩]⟩]
      start := ⟨0⟩ }
  limits := .standard
  isChecked := by cbv

def optionalNameBuilder : Builder GrammarText.Token where
  terminals := [(emptyStringName, none), ("int", some (.reference .int)),
    ("symbol", some (.reference .symbol))]
  nonTerminals := [
    ("Label", [⟨["Name"], [.constant (.int 1)]⟩, ⟨["int"], [.constant (.int 2)]⟩]),
    ("Name", [⟨[emptyStringName], [.constant (.int 3)]⟩, ⟨["symbol"], [.constant (.int 4)]⟩])]
  start := none

def optionalNameTable : LookaheadTable where
  nullable _ := true
  first nt := if nt = ⟨0⟩ then [⟨1⟩, ⟨2⟩] else [⟨2⟩]
  follow _ := []

theorem optionalName_decides : optionalNameTable.Decides optionalName.grammar := by decide

theorem optionalName_matchedOnce :
    optionalName.grammar.MatchedOnce [⟨.int, 0, 1, some (.int 1)⟩] := by
  have h {id : Terminal.Id} {x : GrammarText.Token} (hx : x.kind = .int)
      (hm : optionalName.grammar.Matches id x) : id = ⟨1⟩ := by
    obtain ⟨hid, t, ht, hm⟩ := hm
    obtain ⟨i⟩ := id
    match i with
    | 0 => exact absurd rfl hid
    | 1 => rfl
    | 2 =>
      cases ht
      have : (GrammarText.Kind.symbol == x.kind) = true := hm
      simp [hx] at this
    | i + 3 => cases ht
  intro x hx a b ha hb
  obtain rfl := List.mem_singleton.mp hx
  rw [h rfl ha, h rfl hb]

theorem optionalName_actionsSucceed (tokens : List GrammarText.Token) :
    optionalName.grammar.ActionsSucceed tokens := by
  intro nt k r s c results s' hr _
  obtain ⟨set, hset, hk⟩ := Grammar.rule?_eq_some_iff.mp hr
  have h : ∀ set ∈ optionalName.grammar.nonTerminals, ∀ r ∈ set.rules,
      ∃ n, r.action = [.constant (.int n)] := by
    simp [optionalName]
  obtain ⟨n, hn⟩ := h set (Array.mem_of_getElem? hset) r (List.mem_of_getElem? hk)
  rw [hn]
  exact ⟨_, _, rfl⟩

theorem optionalName_parse :
    ((optionalName.parse #[⟨.int, 0, 1, some (.int 1)⟩]).runFrom ⟨#[]⟩).1 =
      .error (.ambiguous "Label" "Label : Name" "Label : int" 0) := by
  cbv

/-- The rule for names matches nothing before an integer. -/
theorem parse_overlap_optionalName :
    optionalName.grammar.OverlapNamed [⟨.int, 0, 1, some (.int 1)⟩] "Label" "Label : Name"
      "Label : int" 0 :=
  (parse_overlap optionalName_decides.isLL1 optionalName_matchedOnce ⟨#[]⟩).1 _ _ _ _
    optionalName_parse

/-- An integer alone can be derived with the LL(1) grammar, but is reported as ambiguous. -/
theorem optionalName_ambiguous :
    optionalNameBuilder.build ⟨[]⟩ = .ok optionalName.grammar ∧ optionalName.grammar.IsLL1 ∧
      optionalName.grammar.MatchedOnce [⟨.int, 0, 1, some (.int 1)⟩] ∧
      optionalName.grammar.ActionsSucceed [⟨.int, 0, 1, some (.int 1)⟩] ∧
      optionalName.grammar.Generates [⟨.int, 0, 1, some (.int 1)⟩] ∧
      ((optionalName.parse #[⟨.int, 0, 1, some (.int 1)⟩]).runFrom ⟨#[]⟩).1 =
        .error (.ambiguous "Label" "Label : Name" "Label : int" 0) := by
  refine ⟨rfl, optionalName_decides.isLL1, optionalName_matchedOnce,
    optionalName_actionsSucceed _, ?_, optionalName_parse⟩
  have hint : optionalName.grammar.Matches ⟨1⟩ ⟨.int, 0, 1, some (.int 1)⟩ :=
    ⟨by decide, _, rfl, rfl⟩
  exact ⟨.node ⟨0⟩ 1 (.token ⟨1⟩ _ .nil) .nil, .node rfl (.token hint .nil) .nil, rfl⟩

end Parser

end ActionGrammar
