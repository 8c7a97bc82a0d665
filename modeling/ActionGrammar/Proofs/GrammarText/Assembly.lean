import ActionGrammar.Proofs.GrammarText.Grammar

/-! # What derivations of grammar text write

A derivation stands for one item for every tree in it: a token for its literal,
and a node for the part that its rule assembles from the items of its children.
What a rule assembles is what the phrase writes, and every way to write a part
comes from a derivation.
-/

namespace ActionGrammar.GrammarText

inductive Item where
  | literal (l : Option Literal)
  | part (p : Part)

/-- The rule of the phrase with this number makes the part of the items. -/
inductive Assembles : Phrase → Nat → List Item → Part → Prop
  | grammar {r : RuleDecl} {d : GrammarDecl} :
      Assembles .grammar 0 [.part (.rule r), .part (.grammar d)]
        (.grammar ⟨r :: d.rules, some r.nonTerminal⟩)
  | rules {r : RuleDecl} {d : GrammarDecl} :
      Assembles .rules 0 [.part (.rule r), .part (.grammar d)]
        (.grammar { d with rules := r :: d.rules })
  | noRules {x : Item} : Assembles .rules 1 [x] (.grammar .empty)
  | rule {n : String} {ns : List String} {es : List Template} {x y z : Item} :
      Assembles .rule 0
        [.literal (some (.str n)), x, .part (.names ns), y, .part (.exprs es), z]
        (.rule ⟨n, ns, es⟩)
  | symbols {n : String} {ns : List String} :
      Assembles .symbols 0 [.literal (some (.str n)), .part (.names ns)] (.names (n :: ns))
  | noSymbols {x : Item} : Assembles .symbols 1 [x] (.names [])
  | exprs {e : Template} {es : List Template} {x : Item} :
      Assembles .exprs 0 [.part (.expr e), x, .part (.exprs es)] (.exprs (e :: es))
  | noExprs {x : Item} : Assembles .exprs 1 [x] (.exprs [])
  | construct {ns : List String} {es : List Template} {x y z : Item} :
      Assembles .expr 0 [x, .part (.names ns), y, .part (.exprs es), z]
        (.expr (.construct (DottedName.join ns) es))
  | static {ns : List String} {es : List Template} {x y z : Item} :
      Assembles .expr 1 [x, .part (.names ns), y, .part (.exprs es), z]
        (.expr (.static (DottedName.join ns) es))
  | invoke {ns : List String} {e : Template} {es : List Template} {x y : Item} :
      Assembles .expr 2 [.part (.names ns), x, .part (.expr e), .part (.exprs es), y]
        (.expr (.invoke (DottedName.join ns) e es))
  | exprLiteral {e : Template} : Assembles .expr 3 [.part (.expr e)] (.expr e)
  | name {n : String} {ns : List String} :
      Assembles .name 0 [.literal (some (.str n)), .part (.names ns)] (.names (n :: ns))
  | nameTail {n : String} {ns : List String} {x : Item} :
      Assembles .nameTail 0 [x, .literal (some (.str n)), .part (.names ns)] (.names (n :: ns))
  | noNameTail {x : Item} : Assembles .nameTail 1 [x] (.names [])
  | args {e : Template} {es : List Template} :
      Assembles .args 0 [.part (.expr e), .part (.exprs es)] (.exprs (e :: es))
  | noArgs {x : Item} : Assembles .args 1 [x] (.exprs [])
  | argsTail {e : Template} {es : List Template} {x : Item} :
      Assembles .argsTail 0 [x, .part (.expr e), .part (.exprs es)] (.exprs (e :: es))
  | noArgsTail {x : Item} : Assembles .argsTail 1 [x] (.exprs [])
  | result {n : Int64} {i : Nat} : n.toInt = i →
      Assembles .literal 0 [.literal (some (.int n))] (.expr (.result i))
  | constant {k : Nat} {l : Literal} :
      Assembles .literal (k + 1) [.literal (some l)] (.expr (.constant l))

theorem Assembles.unique {ph : Phrase} {k : Nat} {xs : List Item} {p q : Part}
    (h : Assembles ph k xs p) (h' : Assembles ph k xs q) : p = q := by
  cases h with
  | result hi =>
    cases h' with
    | result hi' => rw [Int.ofNat.inj (hi.symm.trans hi')]
  | _ =>
    cases h'
    rfl

/-- The tokens spell the symbols, and each symbol stands for an item. -/
inductive Spells : List Symbol → List Token → List Item → Prop
  | nil : Spells [] [] []
  | empty {ss : List Symbol} {ts : List Token} {xs : List Item} : Spells ss ts xs →
      Spells (.terminal ⟨0⟩ :: ss) ts (.literal none :: xs)
  | token {t : Token} {ss : List Symbol} {ts : List Token} {xs : List Item} : t.Fits →
      Spells ss ts xs → Spells (t.kind.asSymbol :: ss) (t :: ts) (.literal t.payload :: xs)
  | phrase {ph : Phrase} {p : Part} {ss : List Symbol} {ts us : List Token} {xs : List Item} :
      Writes Token.alphabet ph ts p → Spells ss us xs →
      Spells (ph.asSymbol :: ss) (ts ++ us) (.part p :: xs)

theorem terminal_injective : Function.Injective Kind.terminal := by
  intro k k' h
  cases k <;> cases k' <;> simp [Kind.terminal] at h ⊢

theorem nonTerminal_injective : Function.Injective Phrase.nonTerminal := by
  intro ph ph' h
  cases ph <;> cases ph' <;> simp [Phrase.nonTerminal] at h ⊢

theorem Kind.asSymbol_ne_empty (k : Kind) : k.asSymbol ≠ .terminal ⟨0⟩ := by
  cases k <;> simp [asSymbol, terminal]

section

variable {ss : List Symbol} {ts : List Token} {xs : List Item}

theorem spells_nil_iff : Spells [] ts xs ↔ ts = [] ∧ xs = [] := by
  constructor
  · rintro ⟨⟩
    exact ⟨rfl, rfl⟩
  · rintro ⟨rfl, rfl⟩
    exact .nil

theorem spells_token_iff {k : Kind} : Spells (k.asSymbol :: ss) ts xs ↔
    ∃ t us ys, ts = t :: us ∧ xs = .literal t.payload :: ys ∧ t.kind = k ∧ t.Fits ∧
      Spells ss us ys := by
  constructor
  · generalize hs : k.asSymbol :: ss = ss'
    rintro (_ | h | ⟨hf, h⟩ | ⟨h, h'⟩)
    · contradiction
    · exact absurd (List.cons.inj hs).1 k.asSymbol_ne_empty
    · obtain ⟨hk, rfl⟩ := List.cons.inj hs
      exact ⟨_, _, _, rfl, rfl, terminal_injective (Symbol.terminal.inj hk.symm), hf, h⟩
    · exact nomatch (List.cons.inj hs).1
  · rintro ⟨t, us, ys, rfl, rfl, rfl, hf, h⟩
    exact .token hf h

theorem spells_phrase_iff {ph : Phrase} : Spells (ph.asSymbol :: ss) ts xs ↔
    ∃ us vs p ys, ts = us ++ vs ∧ xs = .part p :: ys ∧ Writes Token.alphabet ph us p ∧
      Spells ss vs ys := by
  constructor
  · generalize hs : ph.asSymbol :: ss = ss'
    rintro (_ | h | ⟨hf, h⟩ | ⟨h, h'⟩)
    · contradiction
    · exact nomatch (List.cons.inj hs).1
    · exact nomatch (List.cons.inj hs).1
    · obtain ⟨hk, rfl⟩ := List.cons.inj hs
      obtain rfl := nonTerminal_injective (Symbol.nonTerminal.inj hk)
      exact ⟨_, _, _, _, rfl, rfl, h, h'⟩
  · rintro ⟨us, vs, p, ys, rfl, rfl, h, h'⟩
    exact .phrase h h'

theorem spells_empty_iff : Spells (.terminal ⟨0⟩ :: ss) ts xs ↔
    ∃ ys, xs = .literal none :: ys ∧ Spells ss ts ys := by
  constructor
  · generalize hs : Symbol.terminal ⟨0⟩ :: ss = ss'
    rintro (_ | h | ⟨hf, h⟩ | ⟨h, h'⟩)
    · contradiction
    · obtain ⟨-, rfl⟩ := List.cons.inj hs
      exact ⟨_, rfl, h⟩
    · exact absurd (List.cons.inj hs).1.symm (Kind.asSymbol_ne_empty _)
    · exact nomatch (List.cons.inj hs).1
  · rintro ⟨ys, rfl, h⟩
    exact .empty h

theorem spells_empty_alone (h : Spells [.terminal ⟨0⟩] ts xs) : ts = [] ∧ xs = [.literal none] := by
  simp only [spells_empty_iff, spells_nil_iff] at h
  obtain ⟨_, rfl, rfl, rfl⟩ := h
  exact ⟨rfl, rfl⟩

variable {ν : Type} {types : PartTypes} {ph : Phrase} {k : Nat} {r : Rule (Payload ν)}

theorem Spells.assembles_expr (hr : (rulesOf types .expr)[k]? = some r)
    (h : Spells r.symbols ts xs) :
    ∃ p, Assembles .expr k xs p ∧ Writes Token.alphabet .expr ts p := by
  match k with
  | 0 =>
    obtain rfl := Option.some.inj hr
    simp only [spells_phrase_iff, spells_token_iff, spells_nil_iff] at h
    obtain ⟨t, _, _, rfl, rfl, ht, -, us, _, p, _, rfl, rfl, hp, l, _, _, rfl, rfl, hl, -, vs, _, q,
      _, rfl, rfl, hq, e, _, _, rfl, rfl, he, -, rfl, rfl⟩ := h
    obtain ⟨ns, rfl⟩ := hp.sort
    obtain ⟨es, rfl⟩ := hq.sort
    exact ⟨_, .construct, .construct ht hp hl hq he⟩
  | 1 =>
    obtain rfl := Option.some.inj hr
    simp only [spells_phrase_iff, spells_token_iff, spells_nil_iff] at h
    obtain ⟨t, _, _, rfl, rfl, ht, -, us, _, p, _, rfl, rfl, hp, l, _, _, rfl, rfl, hl, -, vs, _, q,
      _, rfl, rfl, hq, e, _, _, rfl, rfl, he, -, rfl, rfl⟩ := h
    obtain ⟨ns, rfl⟩ := hp.sort
    obtain ⟨es, rfl⟩ := hq.sort
    exact ⟨_, .static, .static ht hp hl hq he⟩
  | 2 =>
    obtain rfl := Option.some.inj hr
    simp only [spells_phrase_iff, spells_token_iff, spells_nil_iff] at h
    obtain ⟨us, _, p, _, rfl, rfl, hp, l, _, _, rfl, rfl, hl, -, vs, _, x, _, rfl, rfl, hx, ws, _,
      q, _, rfl, rfl, hq, e, _, _, rfl, rfl, he, -, rfl, rfl⟩ := h
    obtain ⟨ns, rfl⟩ := hp.sort
    obtain ⟨e, rfl⟩ := hx.sort
    obtain ⟨es, rfl⟩ := hq.sort
    exact ⟨_, .invoke, .invoke hp hl hx hq he⟩
  | 3 =>
    obtain rfl := Option.some.inj hr
    simp only [spells_phrase_iff, spells_nil_iff] at h
    obtain ⟨us, _, p, _, rfl, rfl, hp, rfl, rfl⟩ := h
    obtain ⟨e, rfl⟩ := hp.sort
    rw [List.append_nil]
    exact ⟨_, .exprLiteral, .exprLiteral hp⟩

theorem Spells.assembles_literal (hr : (rulesOf types .literal)[k]? = some r)
    (h : Spells r.symbols ts xs) :
    ∃ p, Assembles .literal k xs p ∧ Writes Token.alphabet .literal ts p := by
  have hconstant {c : Kind} (hc : c ∈ [.str, .int, .double]) (h : Spells [c.asSymbol] ts xs)
      (j : Nat) : ∃ p, Assembles .literal (j + 1) xs p ∧ Writes Token.alphabet .literal ts p := by
    simp only [spells_token_iff, spells_nil_iff] at h
    obtain ⟨t, _, _, rfl, rfl, rfl, hf, rfl, rfl⟩ := h
    obtain ⟨l, hl⟩ := hf.exists_literal hc
    rw [hl]
    exact ⟨_, .constant, .literal (.inr ⟨hc, l, hl, rfl⟩)⟩
  match k with
  | 0 =>
    obtain rfl := Option.some.inj hr
    simp only [spells_token_iff, spells_nil_iff] at h
    obtain ⟨t, _, _, rfl, rfl, ht, hf, rfl, rfl⟩ := h
    obtain ⟨n, i, hn, hi⟩ := hf.exists_result ht
    rw [hn]
    exact ⟨_, .result hi, .literal (.inl ⟨ht, n, i, hn, hi, rfl⟩)⟩
  | 1 | 2 | 3 =>
    obtain rfl := Option.some.inj hr
    exact hconstant (by decide) h _

theorem Spells.assembles (hr : (rulesOf types ph)[k]? = some r) (h : Spells r.symbols ts xs) :
    ∃ p, Assembles ph k xs p ∧ Writes Token.alphabet ph ts p := by
  cases ph with
  | grammar =>
    match k with
    | 0 =>
      obtain rfl := Option.some.inj hr
      simp only [spells_phrase_iff, spells_nil_iff] at h
      obtain ⟨ts, us, p, _, rfl, rfl, hp, _, us, q, _, rfl, rfl, hq, rfl, rfl⟩ := h
      obtain ⟨r, rfl⟩ := hp.sort
      obtain ⟨d, rfl⟩ := hq.sort
      rw [List.append_nil]
      exact ⟨_, .grammar, .grammar hp hq⟩
  | rules =>
    match k with
    | 0 =>
      obtain rfl := Option.some.inj hr
      simp only [spells_phrase_iff, spells_nil_iff] at h
      obtain ⟨ts, us, p, _, rfl, rfl, hp, _, us, q, _, rfl, rfl, hq, rfl, rfl⟩ := h
      obtain ⟨r, rfl⟩ := hp.sort
      obtain ⟨d, rfl⟩ := hq.sort
      rw [List.append_nil]
      exact ⟨_, .rules, .rules hp hq⟩
    | 1 =>
      obtain rfl := Option.some.inj hr
      obtain ⟨rfl, rfl⟩ := spells_empty_alone h
      exact ⟨_, .noRules, .noRules⟩
  | rule =>
    match k with
    | 0 =>
      obtain rfl := Option.some.inj hr
      simp only [spells_phrase_iff, spells_token_iff, spells_nil_iff] at h
      obtain ⟨t, _, _, rfl, rfl, ht, hf, c, _, _, rfl, rfl, hc, -, us, _, p, _, rfl, rfl, hp, l, _,
        _, rfl, rfl, hl, -, vs, _, q, _, rfl, rfl, hq, e, _, _, rfl, rfl, he, -, rfl, rfl⟩ := h
      obtain ⟨n, hn⟩ := hf.exists_str ht
      obtain ⟨ns, rfl⟩ := hp.sort
      obtain ⟨es, rfl⟩ := hq.sort
      rw [hn]
      exact ⟨_, .rule, .rule ⟨ht, hn⟩ hc hp hl hq he⟩
  | symbols =>
    match k with
    | 0 =>
      obtain rfl := Option.some.inj hr
      simp only [spells_phrase_iff, spells_token_iff, spells_nil_iff] at h
      obtain ⟨t, _, _, rfl, rfl, ht, hf, us, _, p, _, rfl, rfl, hp, rfl, rfl⟩ := h
      obtain ⟨n, hn⟩ := hf.exists_str ht
      obtain ⟨ns, rfl⟩ := hp.sort
      rw [hn, List.append_nil]
      exact ⟨_, .symbols, .symbols ⟨ht, hn⟩ hp⟩
    | 1 =>
      obtain rfl := Option.some.inj hr
      obtain ⟨rfl, rfl⟩ := spells_empty_alone h
      exact ⟨_, .noSymbols, .noSymbols⟩
  | exprs =>
    match k with
    | 0 =>
      obtain rfl := Option.some.inj hr
      simp only [spells_phrase_iff, spells_token_iff, spells_nil_iff] at h
      obtain ⟨us, _, p, _, rfl, rfl, hp, s, _, _, rfl, rfl, hs, -, vs, _, q, _, rfl, rfl, hq, rfl,
        rfl⟩ := h
      obtain ⟨e, rfl⟩ := hp.sort
      obtain ⟨es, rfl⟩ := hq.sort
      rw [List.append_nil]
      exact ⟨_, .exprs, .exprs hp hs hq⟩
    | 1 =>
      obtain rfl := Option.some.inj hr
      obtain ⟨rfl, rfl⟩ := spells_empty_alone h
      exact ⟨_, .noExprs, .noExprs⟩
  | expr => exact h.assembles_expr hr
  | name =>
    match k with
    | 0 =>
      obtain rfl := Option.some.inj hr
      simp only [spells_phrase_iff, spells_token_iff, spells_nil_iff] at h
      obtain ⟨t, _, _, rfl, rfl, ht, hf, us, _, p, _, rfl, rfl, hp, rfl, rfl⟩ := h
      obtain ⟨n, hn⟩ := hf.exists_str ht
      obtain ⟨ns, rfl⟩ := hp.sort
      rw [hn, List.append_nil]
      exact ⟨_, .name, .name ⟨ht, hn⟩ hp⟩
  | nameTail =>
    match k with
    | 0 =>
      obtain rfl := Option.some.inj hr
      simp only [spells_phrase_iff, spells_token_iff, spells_nil_iff] at h
      obtain ⟨d, _, _, rfl, rfl, hd, -, t, _, _, rfl, rfl, ht, hf, us, _, p, _, rfl, rfl, hp, rfl,
        rfl⟩ := h
      obtain ⟨n, hn⟩ := hf.exists_str ht
      obtain ⟨ns, rfl⟩ := hp.sort
      rw [hn, List.append_nil]
      exact ⟨_, .nameTail, .nameTail hd ⟨ht, hn⟩ hp⟩
    | 1 =>
      obtain rfl := Option.some.inj hr
      obtain ⟨rfl, rfl⟩ := spells_empty_alone h
      exact ⟨_, .noNameTail, .noNameTail⟩
  | args =>
    match k with
    | 0 =>
      obtain rfl := Option.some.inj hr
      simp only [spells_phrase_iff, spells_nil_iff] at h
      obtain ⟨us, _, p, _, rfl, rfl, hp, vs, _, q, _, rfl, rfl, hq, rfl, rfl⟩ := h
      obtain ⟨e, rfl⟩ := hp.sort
      obtain ⟨es, rfl⟩ := hq.sort
      rw [List.append_nil]
      exact ⟨_, .args, .args hp hq⟩
    | 1 =>
      obtain rfl := Option.some.inj hr
      obtain ⟨rfl, rfl⟩ := spells_empty_alone h
      exact ⟨_, .noArgs, .noArgs⟩
  | argsTail =>
    match k with
    | 0 =>
      obtain rfl := Option.some.inj hr
      simp only [spells_phrase_iff, spells_token_iff, spells_nil_iff] at h
      obtain ⟨c, _, _, rfl, rfl, hc, -, us, _, p, _, rfl, rfl, hp, vs, _, q, _, rfl, rfl, hq, rfl,
        rfl⟩ := h
      obtain ⟨e, rfl⟩ := hp.sort
      obtain ⟨es, rfl⟩ := hq.sort
      rw [List.append_nil]
      exact ⟨_, .argsTail, .argsTail hc hp hq⟩
    | 1 =>
      obtain rfl := Option.some.inj hr
      obtain ⟨rfl, rfl⟩ := spells_empty_alone h
      exact ⟨_, .noArgsTail, .noArgsTail⟩
  | literal => exact h.assembles_literal hr

end

/-! ### Derivations -/

/-- The trees stand for the items. -/
inductive Builds : Forest Token → List Item → Prop
  | nil : Builds .nil []
  | empty {f : Forest Token} {xs : List Item} : Builds f xs →
      Builds (.empty f) (.literal none :: xs)
  | token {id : Terminal.Id} {t : Token} {l : Option Literal} {f : Forest Token}
      {xs : List Item} : t.payload = l → Builds f xs → Builds (.token id t f) (.literal l :: xs)
  | node {nt : NonTerminal} {ph : Phrase} {k : Nat} {p : Part} {c f : Forest Token}
      {xs ys : List Item} : ph.nonTerminal = nt → Assembles ph k ys p → Builds c ys →
      Builds f xs → Builds (.node nt k c f) (.part p :: xs)

theorem Builds.unique {f : Forest Token} {xs ys : List Item} (h : Builds f xs)
    (h' : Builds f ys) : xs = ys := by
  induction h generalizing ys with
  | nil =>
    cases h'
    rfl
  | empty _ ih =>
    cases h' with
    | empty h' => rw [ih h']
  | token hl _ ih =>
    cases h' with
    | token hl' h' => rw [← hl, ← hl', ih h']
  | node hn ha _ _ ih ih' =>
    cases h' with
    | node hn' ha' hc' h' =>
      obtain rfl := nonTerminal_injective (hn.trans hn'.symm)
      obtain rfl := ih hc'
      rw [ha.unique ha', ih' h']

/-- The tokens have a derivation that stands for the items. -/
def Derivable (ν : Type) (types : PartTypes) (ss : List Symbol) (ts : List Token)
    (xs : List Item) : Prop :=
  ∃ f, (built types : Grammar (Payload ν) Token).Derives ss f ∧ f.yield = ts ∧ Builds f xs

namespace Derivable

variable {ν : Type} {types : PartTypes} {ss : List Symbol} {ts us : List Token} {xs ys : List Item}

theorem nil : Derivable ν types [] [] [] := ⟨.nil, .nil, rfl, .nil⟩

theorem empty (h : Derivable ν types ss ts xs) :
    Derivable ν types (.terminal ⟨0⟩ :: ss) ts (.literal none :: xs) := by
  obtain ⟨f, hd, hy, hb⟩ := h
  exact ⟨.empty f, .empty hd, hy, .empty hb⟩

theorem token {k : Kind} {t : Token} {l : Option Literal} (hk : k ∈ terminals.map Prod.snd)
    (ht : t.kind = k) (hl : t.payload = l) (h : Derivable ν types ss ts xs) :
    Derivable ν types (k.asSymbol :: ss) (t :: ts) (.literal l :: xs) := by
  obtain ⟨f, hd, rfl, hb⟩ := h
  subst ht
  exact ⟨.token _ t f, .token (matches_built_iff.mpr ⟨hk, rfl⟩) hd, rfl, .token hl hb⟩

theorem node {ph : Phrase} {k : Nat} {p : Part} {r : Rule (Payload ν)}
    (hr : (rulesOf types ph)[k]? = some r) (ha : Assembles ph k ys p)
    (hc : Derivable ν types r.symbols ts ys) (h : Derivable ν types ss us xs) :
    Derivable ν types (ph.asSymbol :: ss) (ts ++ us) (.part p :: xs) := by
  obtain ⟨c, hcd, rfl, hcb⟩ := hc
  obtain ⟨f, hd, rfl, hb⟩ := h
  exact ⟨.node _ k c f, .node ((rule?_built types ph k).trans hr) hcd hd, rfl,
    .node rfl ha hcb hb⟩

end Derivable

/-- What a phrase writes has a derivation. -/
theorem Writes.derivable {ν : Type} {types : PartTypes} {ph : Phrase} {ts : List Token} {p : Part}
    (h : Writes Token.alphabet ph ts p) {ss : List Symbol} {us : List Token} {xs : List Item}
    (hrest : Derivable ν types ss us xs) :
    Derivable ν types (ph.asSymbol :: ss) (ts ++ us) (.part p :: xs) := by
  have hempty : Derivable ν types [.terminal ⟨0⟩] [] [.literal none] := .empty .nil
  induction h generalizing ss us xs with
  | grammar _ _ ih ih' => exact .node rfl .grammar (ih (by simpa using ih' .nil)) hrest
  | noRules => exact .node rfl .noRules hempty hrest
  | rules _ _ ih ih' => exact .node rfl .rules (ih (by simpa using ih' .nil)) hrest
  | rule ht hc _ hl _ he ih ih' =>
    have hbody := ih (.token (by decide) hl rfl (ih' (.token (by decide) he rfl .nil)))
    exact .node rfl .rule (.token (by decide) ht.1 ht.2 (.token (by decide) hc rfl hbody)) hrest
  | noSymbols => exact .node rfl .noSymbols hempty hrest
  | symbols ht _ ih =>
    exact .node rfl .symbols (.token (by decide) ht.1 ht.2 (by simpa using ih .nil)) hrest
  | noExprs => exact .node rfl .noExprs hempty hrest
  | exprs _ hs _ ih ih' =>
    exact .node rfl .exprs (ih (.token (by decide) hs rfl (by simpa using ih' .nil))) hrest
  | construct hk _ hl _ he ih ih' =>
    have hargs := ih (.token (by decide) hl rfl (ih' (.token (by decide) he rfl .nil)))
    exact .node rfl .construct (.token (by decide) hk rfl hargs) hrest
  | static hk _ hl _ he ih ih' =>
    have hargs := ih (.token (by decide) hl rfl (ih' (.token (by decide) he rfl .nil)))
    exact .node rfl .static (.token (by decide) hk rfl hargs) hrest
  | invoke _ hl _ _ he ih ih' ih'' =>
    have hargs := ih' (ih'' (.token (by decide) he rfl .nil))
    exact .node rfl .invoke (ih (.token (by decide) hl rfl hargs)) hrest
  | exprLiteral _ ih => exact .node rfl .exprLiteral (by simpa using ih .nil) hrest
  | name ht _ ih =>
    exact .node rfl .name (.token (by decide) ht.1 ht.2 (by simpa using ih .nil)) hrest
  | noNameTail => exact .node rfl .noNameTail hempty hrest
  | nameTail hd ht _ ih =>
    have htail := Derivable.token (by decide) ht.1 ht.2 (by simpa using ih .nil)
    exact .node rfl .nameTail (.token (by decide) hd rfl htail) hrest
  | noArgs => exact .node rfl .noArgs hempty hrest
  | args _ _ ih ih' => exact .node rfl .args (ih (by simpa using ih' .nil)) hrest
  | noArgsTail => exact .node rfl .noArgsTail hempty hrest
  | argsTail hc _ _ ih ih' =>
    exact .node rfl .argsTail (.token (by decide) hc rfl (ih (by simpa using ih' .nil))) hrest
  | literal ht =>
    rcases ht with ⟨hk, n, i, hl, hi, rfl⟩ | ⟨hk, l, hl, rfl⟩
    · exact .node rfl (.result hi) (.token (by decide) hk hl .nil) hrest
    · simp only [List.mem_cons, List.not_mem_nil, or_false] at hk
      rcases hk with hk | hk | hk
      · exact .node rfl (.constant (k := 0)) (.token (by decide) hk hl .nil) hrest
      · exact .node rfl (.constant (k := 1)) (.token (by decide) hk hl .nil) hrest
      · exact .node rfl (.constant (k := 2)) (.token (by decide) hk hl .nil) hrest

end ActionGrammar.GrammarText
