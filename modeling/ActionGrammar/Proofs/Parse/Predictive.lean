import ActionGrammar.GrammarText.Token
import ActionGrammar.Proofs.Grammar.LookaheadTable
import ActionGrammar.Proofs.Parse.Engine

/-! # Parsing with LL(1) grammars

Although a parse tries all rules and never looks ahead, it finds every derivation
of an LL(1) grammar in which only the empty string alone competes with other
rules: a rule that matches in its place begins with a terminal that cannot
follow.
-/

namespace ActionGrammar

namespace Grammar

section

variable {π τ : Type} {g : Grammar π τ} {ss : List Symbol} {C : Terminal.Id → Prop}

/-- In the place of the symbols, the terminals of `C` may stand behind them. -/
def Fits (g : Grammar π τ) (ss : List Symbol) (C : Terminal.Id → Prop) : Prop :=
  ∀ α nt β, ss = α ++ .nonTerminal nt :: β → g.Reachable nt ∧
    (∀ a, g.First β a → g.Follow nt (some a)) ∧
    (g.Nullable β → ∀ a, C a → g.Follow nt (some a))

theorem Fits.tail {s : Symbol} (h : g.Fits (s :: ss) C) : g.Fits ss C :=
  fun α nt β hs => h (s :: α) nt β (by rw [hs, List.cons_append])

theorem Fits.rule {nt : NonTerminal} {k : Nat} {r : Rule π} (hn : g.Reachable nt)
    (hr : g.rule? nt k = some r) : g.Fits r.symbols fun a => g.Follow nt (some a) := by
  intro α nt' β hs
  refine ⟨hn.step hr (by simp [hs]), fun a ha => .next hn hr hs ha, fun hβ a ha => ?_⟩
  exact .last ha hr hs hβ

theorem fits_start : g.Fits [.nonTerminal g.start] fun _ => False := by
  intro α nt β hs
  obtain ⟨rfl, hs⟩ | ⟨_, _, hs⟩ := List.cons_eq_append_iff.mp hs
  · obtain ⟨h, rfl⟩ := List.cons.inj hs
    obtain rfl := Symbol.nonTerminal.inj h
    refine ⟨.start, ?_, fun _ a ha => ha.elim⟩
    rintro a ⟨⟩
  · simp at hs

end

variable {π τ : Type} [Token τ]

/-- The token at the position, if there is one, only matches terminals of `C`. -/
def NextIn (g : Grammar π τ) (tokens : List τ) (i : Nat) (C : Terminal.Id → Prop) : Prop :=
  ∀ x, tokens[i]? = some x → ∀ a, g.Matches a x → C a

def MatchedOnce (g : Grammar π τ) (tokens : List τ) : Prop :=
  ∀ x ∈ tokens, ∀ a b, g.Matches a x → g.Matches b x → a = b

variable {g : Grammar π τ} {tokens : List τ} {ss : List Symbol} {i : Nat}
  {C : Terminal.Id → Prop}

theorem Fits.nextIn (hone : g.MatchedOnce tokens) {nt : NonTerminal} {f : Forest τ}
    (h : g.Fits (.nonTerminal nt :: ss) C) (hd : g.Derives ss f)
    (hy : f.yield <+: tokens.drop i) (hC : g.NextIn tokens (i + f.yield.length) C) :
    g.NextIn tokens i fun a => g.Follow nt (some a) := by
  obtain ⟨-, hfirst, hlast⟩ := h [] nt ss rfl
  intro x hx a ha
  cases hf : f.yield with
  | nil =>
    rw [hf] at hC
    exact hlast (hd.nullable hf) a (hC x hx a ha)
  | cons y ys =>
    rw [hf, cons_prefix_drop_iff] at hy
    obtain rfl := Option.some.inj (hx.symm.trans hy.1)
    obtain ⟨b, hb, hbx⟩ := hd.first hf
    obtain rfl := hone x (List.mem_of_getElem? hx) a b ha hbx
    exact hfirst a hb

theorem Recognizes.not_some (hll : g.IsLL1) (hε : g.NullableIsEpsilon) {nt : NonTerminal}
    {k k' : Nat} {r r' : Rule π} {found : Forest τ × Nat} (hr : g.rule? nt k = some r)
    (hr' : g.rule? nt k' = some r') (hk : k ≠ k') (he : r.isEpsilon = false)
    (hn : g.Nullable r'.symbols) (hnext : g.NextIn tokens i fun a => g.Follow nt (some a)) :
    ¬ g.Recognizes tokens r.symbols i (some found) := by
  intro h
  obtain ⟨hd, hy, -⟩ := h.derives _ _ rfl
  cases hc : found.1.yield with
  | nil => simp [hε hr hr' hk (hd.nullable hc)] at he
  | cons x xs =>
    obtain ⟨a, ha, hx⟩ := hd.first hc
    rw [hc, cons_prefix_drop_iff] at hy
    exact hll.first_not_follow hr' hr (Ne.symm hk) hn ha (hnext x hy.1 a hx)

/-- Where the tokens have a derivation, recognition finds it. -/
theorem Recognizes.complete (hll : g.IsLL1) (hε : g.NullableIsEpsilon)
    (hone : g.MatchedOnce tokens) {o : Option (Forest τ × Nat)}
    (h : g.Recognizes tokens ss i o) :
    ∀ f C, g.Derives ss f → f.yield <+: tokens.drop i → g.Fits ss C →
      g.NextIn tokens (i + f.yield.length) C → o = some (f, i + f.yield.length) := by
  induction h with
  | nil =>
    intro f C hd _ _ _
    cases hd
    rfl
  | empty _ ih =>
    intro f C hd hy hs hC
    cases hd with
    | empty hd =>
      rw [ih _ C hd hy hs.tail hC]
      rfl
    | token hm _ => exact absurd rfl hm.1
  | shift hx hm _ ih =>
    intro f C hd hy hs hC
    cases hd with
    | empty _ => exact absurd rfl hm.1
    | token _ hd =>
      obtain ⟨hx', hfy⟩ := cons_prefix_drop_iff.mp hy
      obtain rfl := Option.some.inj (hx.symm.trans hx')
      rw [Forest.yield, List.length_cons, Nat.add_comm _ 1, ← Nat.add_assoc] at hC ⊢
      rw [ih _ C hd hfy hs.tail hC]
      rfl
  | mismatch hid hn =>
    intro f C hd hy _ _
    cases hd with
    | empty _ => exact absurd rfl hid
    | token hm _ => exact absurd hm (hn _ (cons_prefix_drop_iff.mp hy).1)
  | fail he _ ih =>
    intro f C hd hy hs hC
    cases hd with
    | node hr hc hd =>
      obtain ⟨hcy, hy⟩ := append_prefix_drop_iff.mp hy
      rw [Forest.yield, List.length_append, ← Nat.add_assoc] at hC
      have hnext := hs.nextIn hone hd hy hC
      cases ih _ _ hr _ _ hc hcy (.rule (hs [] _ _ rfl).1 hr) hnext
  | @rule nt k r c ss i m o hr he hfound hother hrest ihr ihn ih =>
    intro f C hd hy hs hC
    cases hd with
    | @node _ k' r' _ c' f hr' hc hd =>
      obtain ⟨hcy, hy⟩ := append_prefix_drop_iff.mp hy
      rw [Forest.yield, List.length_append, ← Nat.add_assoc] at hC ⊢
      have hnext := hs.nextIn hone hd hy hC
      have hin := hs [] _ _ rfl
      by_cases hk : k' = k
      · subst hk
        obtain rfl := Option.some.inj (hr.symm.trans hr')
        obtain ⟨rfl, rfl⟩ := Prod.mk.inj (Option.some.inj (ihr _ _ hc hcy (.rule hin.1 hr) hnext))
        rw [ih _ C hd hy hs.tail hC]
        rfl
      · cases he' : r'.isEpsilon with
        | false => cases ihn _ _ hr' hk he' _ _ hc hcy (.rule hin.1 hr') hnext
        | true =>
          rw [hc.eq_of_isEpsilon he'] at hnext
          exact absurd hfound (not_some hll hε hr hr' (Ne.symm hk) he (.of_isEpsilon he') hnext)
  | epsilon hr he hl hn _ ihn ih =>
    intro f C hd hy hs hC
    cases hd with
    | node hr' hc hd =>
      obtain ⟨hcy, hy⟩ := append_prefix_drop_iff.mp hy
      rw [Forest.yield, List.length_append, ← Nat.add_assoc] at hC ⊢
      cases he' : Rule.isEpsilon _ with
      | false =>
        have hnext := hs.nextIn hone hd hy hC
        cases ihn _ _ hr' he' _ _ hc hcy (.rule (hs [] _ _ rfl).1 hr') hnext
      | true =>
        obtain rfl := hll.nullable_unique hr hr' (.of_isEpsilon he) (.of_isEpsilon he')
        obtain rfl := hc.eq_of_isEpsilon he'
        rw [ih _ C hd hy hs.tail hC]
        rfl

theorem Recognizes.eq_of_some (hll : g.IsLL1) (hε : g.NullableIsEpsilon)
    (hone : g.MatchedOnce tokens) {nt : NonTerminal} {k k' : Nat} {r r' : Rule π}
    {found found' : Forest τ × Nat} (hr : g.rule? nt k = some r) (hr' : g.rule? nt k' = some r')
    (he : r.isEpsilon = false) (he' : r'.isEpsilon = false)
    (h : g.Recognizes tokens r.symbols i (some found))
    (h' : g.Recognizes tokens r'.symbols i (some found')) : k = k' := by
  refine Decidable.byContradiction fun hk => ?_
  obtain ⟨hd, hy, -⟩ := h.derives _ _ rfl
  obtain ⟨hd', hy', -⟩ := h'.derives _ _ rfl
  cases hc : found.1.yield with
  | nil => simp [hε hr hr' hk (hd.nullable hc)] at he
  | cons x xs =>
    cases hc' : found'.1.yield with
    | nil => simp [hε hr' hr (Ne.symm hk) (hd'.nullable hc')] at he'
    | cons y ys =>
      rw [hc, cons_prefix_drop_iff] at hy
      rw [hc', cons_prefix_drop_iff] at hy'
      obtain rfl := Option.some.inj (hy.1.symm.trans hy'.1)
      obtain ⟨a, ha, hx⟩ := hd.first hc
      obtain ⟨b, hb, hx'⟩ := hd'.first hc'
      obtain rfl := hone x (List.mem_of_getElem? hy.1) a b hx hx'
      exact hk (hll.first_disjoint hr hr' ha hb)

theorem Recognizes.complete_start (hll : g.IsLL1) (hε : g.NullableIsEpsilon)
    (hone : g.MatchedOnce tokens) {o : Option (Forest τ × Nat)} {f : Forest τ}
    (h : g.Recognizes tokens [.nonTerminal g.start] 0 o)
    (hd : g.Derives [.nonTerminal g.start] f) (hf : f.yield = tokens) :
    o = some (f, tokens.length) := by
  have hend : g.NextIn tokens (0 + f.yield.length) fun _ => False := by
    intro x hx
    simp [hf] at hx
  have hy : f.yield <+: tokens.drop 0 := hf ▸ List.prefix_rfl
  rw [h.complete hll hε hone f _ hd hy fits_start hend, hf, Nat.zero_add]

variable [TokenValue π τ]

/-- No action fails on what the symbols of its rule evaluate to. -/
def ActionsSucceed (g : Grammar π τ) (tokens : List τ) : Prop :=
  ∀ {nt k r s c results s'}, g.rule? nt k = some r →
    g.Evaluates tokens r.symbols s c results s' →
    ∃ v t, (Resolved.evalAction (r.inputs results) r.action).runFrom s' = (.ok v, t)

end Grammar

namespace Parser

variable {π τ : Type} [Token τ] [TokenValue π τ] {p : Parser π τ} {tokens : Array τ}
  {ss : List Symbol} {s : Store π} {e : ParseError}

theorem Failure.notGenerates {b : Builder τ} {r : Registry π}
    (hb : b.build r = .ok p.grammar) (hll : p.grammar.IsLL1) (hε : p.grammar.NullableIsEpsilon)
    (hone : p.grammar.MatchedOnce tokens.toList) (hact : p.grammar.ActionsSucceed tokens.toList)
    (h : p.Failure tokens e) :
    (¬ p.grammar.Generates tokens.toList ∧
      ((∃ i, e = .notGenerated i) ∨ ∃ i j, e = .trailingTokens i j)) ∨
    (∃ n, p.limits.fuel = some n ∧ e = .fuelExhausted n) ∨
    e = .recursionLimitExceeded p.limits.recursion := by
  cases h with
  | notGenerated hn =>
    refine .inl ⟨fun ⟨f, hd, hf⟩ => ?_, .inl ⟨_, rfl⟩⟩
    exact nomatch hn.complete_start hll hε hone hd hf
  | trailing hn hi =>
    refine .inl ⟨fun ⟨f, hd, hf⟩ => ?_, .inr ⟨_, _, rfl⟩⟩
    have := hn.complete_start hll hε hone hd hf
    simp only [Option.some.injEq, Prod.mk.injEq, Array.length_toList] at this
    omega
  | cause hc =>
    cases hc with
    | fuel hn => exact .inr (.inl ⟨_, hn, rfl⟩)
    | recursion => exact .inr (.inr rfl)
    | eval hr hv he =>
      obtain ⟨v, t, hok⟩ := hact hr hv
      exact nomatch hok.symm.trans he
    | ambiguous hk hr hr' he he' hm hm' =>
      have := Grammar.Recognizes.eq_of_some hll hε hone hr hr' he he' hm hm'
      omega
    | fault hn =>
      have hc := Builder.isClosed_of_build hb
      exact absurd ⟨hc, fun s hs => List.mem_singleton.mp hs ▸ hc.start⟩ hn

/-- Parsing with an LL(1) grammar decides whether the tokens can be derived: a parse succeeds if
so, and otherwise ends with tokens that no rule matches, or that are left over. -/
theorem parse_predictive {b : Builder τ} {r : Registry π} (hb : b.build r = .ok p.grammar)
    (hll : p.grammar.IsLL1) (hε : p.grammar.NullableIsEpsilon)
    (hone : p.grammar.MatchedOnce tokens.toList) (hact : p.grammar.ActionsSucceed tokens.toList)
    (hfuel : p.limits.fuel = none) {result : Except ParseError Value} {t : Store π}
    (h : (p.parse tokens).runFrom s = (result, t))
    (hdepth : ∀ n, result ≠ .error (.recursionLimitExceeded n)) :
    ((∃ v, result = .ok v) ↔ p.grammar.Generates tokens.toList) ∧
    ∀ e, result = .error e → (∃ i, e = .notGenerated i) ∨ ∃ i j, e = .trailingTokens i j := by
  cases result with
  | ok v =>
    obtain ⟨f, hf, -⟩ := parse_ok h
    obtain ⟨hd, hy, hlen⟩ := hf.derives _ _ rfl
    refine ⟨⟨fun _ => ⟨f, hd, hy.eq_of_length ?_⟩, fun _ => ⟨v, rfl⟩⟩, fun e he => nomatch he⟩
    simpa using hlen.symm
  | error e =>
    have hfail : ¬ p.grammar.Generates tokens.toList ∧
        ((∃ i, e = .notGenerated i) ∨ ∃ i j, e = .trailingTokens i j) := by
      rcases (parse_error h).notGenerates hb hll hε hone hact with hfail | ⟨n, hn, -⟩ | rfl
      · exact hfail
      · exact nomatch hfuel.symm.trans hn
      · exact absurd rfl (hdepth _)
    refine ⟨⟨(fun ⟨v, hv⟩ => nomatch hv), fun hg => absurd hg hfail.1⟩, fun e' he => ?_⟩
    obtain rfl := Except.error.inj he
    exact hfail.2

/-- Sequences of integers, each of value zero. -/
def ints : Parser Unit GrammarText.Token where
  grammar :=
    { terminals := #[⟨emptyStringName, none⟩, ⟨"int", some (.reference .int)⟩]
      nonTerminals := #[⟨"Ints",
        [⟨[.terminal ⟨1⟩, .nonTerminal ⟨0⟩], [.constant (.int 0)]⟩,
          ⟨[.terminal ⟨0⟩], [.constant (.int 0)]⟩]⟩]
      start := ⟨0⟩ }
  limits := .standard
  isChecked := by cbv

def intsBuilder : Builder GrammarText.Token where
  terminals := [(emptyStringName, none), ("int", some (.reference .int))]
  nonTerminals := [("Ints",
    [⟨["int", "Ints"], [.constant (.int 0)]⟩, ⟨[emptyStringName], [.constant (.int 0)]⟩])]
  start := none

def intsTable : LookaheadTable := ⟨fun _ => true, fun _ => [⟨1⟩], fun _ => []⟩

theorem ints_decides : intsTable.Decides ints.grammar := by decide

theorem ints_nullableIsEpsilon : ints.grammar.NullableIsEpsilon :=
  ints_decides.nullableIsEpsilon (by decide)

theorem ints_matchedOnce (tokens : List GrammarText.Token) : ints.grammar.MatchedOnce tokens := by
  have h {id : Terminal.Id} {x : GrammarText.Token} (hm : ints.grammar.Matches id x) :
      id = ⟨1⟩ := by
    obtain ⟨hid, t, ht, -⟩ := hm
    obtain ⟨i⟩ := id
    match i with
    | 0 => exact absurd rfl hid
    | 1 => rfl
    | i + 2 => cases ht
  intro x _ a b ha hb
  rw [h ha, h hb]

theorem ints_actionsSucceed (tokens : List GrammarText.Token) :
    ints.grammar.ActionsSucceed tokens := by
  intro nt k r s c results s' hr _
  obtain ⟨set, hset, hk⟩ := Grammar.rule?_eq_some_iff.mp hr
  have h : ∀ set ∈ ints.grammar.nonTerminals, ∀ r ∈ set.rules, r.action = [.constant (.int 0)] := by
    simp [ints]
  rw [h set (Array.mem_of_getElem? hset) r (List.mem_of_getElem? hk)]
  exact ⟨_, _, rfl⟩

/-- An integer alone is parsed, as it can be derived. -/
theorem parse_predictive_int : ints.grammar.Generates [⟨.int, 0, 1, some (.int 1)⟩] := by
  have h : (ints.parse #[⟨.int, 0, 1, some (.int 1)⟩]).runFrom ⟨#[]⟩ = (.ok (.int 0), ⟨#[]⟩) := by
    cbv
  refine (parse_predictive (b := intsBuilder) (r := ⟨[]⟩) rfl ints_decides.isLL1
    ints_nullableIsEpsilon (ints_matchedOnce _) (ints_actionsSucceed _) rfl h ?_).1.mp
    ⟨_, rfl⟩
  intro n hn
  cases hn

end Parser

end ActionGrammar
