import ActionGrammar.GrammarText.Read
import ActionGrammar.Proofs.GrammarText.Actions
import ActionGrammar.Proofs.GrammarText.Lexer

/-! # What is read from grammar text

Grammar text is read exactly if it is written in the notation of grammar text,
and what is read is the grammar that it declares. Otherwise the text is
malformed: no rules are ever ambiguous, and no action ever fails.
-/

namespace ActionGrammar.GrammarText

variable {ν : Type} {types : PartTypes} {p : Parser (Payload ν) Token} {tokens : Array Token}
  {s t : Store (Payload ν)} {v : Value} {e : ParseError} {d : GrammarDecl}

def NestsTooDeep (p : Parser (Payload ν) Token) (tokens : List Token) : Prop :=
  ∃ n t, (p.parse tokens.toArray).runFrom .empty = (.error (.recursionLimitExceeded n), t)

theorem not_nestsTooDeep {tokens : List Token}
    (h : ((p.parse tokens.toArray).runFrom .empty).1.toBool = true) : ¬ NestsTooDeep p tokens := by
  rintro ⟨n, t, hrun⟩
  rw [hrun] at h
  exact nomatch h

theorem Declares.derivation (ν : Type) (types : PartTypes) {tokens : List Token}
    (h : Declares tokens d) :
    ∃ f, (built types : Grammar (Payload ν) Token).Derives [.nonTerminal ⟨0⟩] f ∧
      f.yield = tokens ∧ Builds f [.part (.grammar d)] := by
  obtain ⟨f, hd, hy, hb⟩ := Writes.derivable h (Derivable.nil : Derivable ν types [] [] [])
  exact ⟨f, hd, hy.trans (List.append_nil _), hb⟩

/-- A parse that succeeds yields the one grammar that the tokens declare. -/
theorem declares_of_parse (hp : p.grammar = built types) (hfits : ∀ x ∈ tokens.toList, x.Fits)
    (h : (p.parse tokens).runFrom s = (.ok v, t)) :
    ∃ d, Part.read? t types.grammar Part.asGrammar? v = some d ∧
      ∀ d', Declares tokens.toList d' ↔ d' = d := by
  obtain ⟨f, hf, hv⟩ := Parser.parse_ok h
  obtain ⟨-, hy, hlen⟩ := hf.derives _ _ rfl
  have hy : f.yield = tokens.toList := hy.eq_of_length (by simpa using hlen.symm)
  rw [hp] at hf hv
  obtain ⟨-, xs, hb, hsp, hheld⟩ := evaluates_built hfits hv
  have hsp : Spells [Phrase.grammar.asSymbol] f.yield xs := hsp
  obtain ⟨ts, _, q, _, hts, rfl, hq, hnil⟩ := spells_phrase_iff.mp hsp
  obtain ⟨rfl, rfl⟩ := spells_nil_iff.mp hnil
  rw [List.append_nil, hy] at hts
  obtain ⟨d, rfl⟩ := hq.sort
  obtain _ | ⟨hd, -⟩ := hheld
  refine ⟨d, Holds.read? hd rfl, fun d' => ⟨fun hd' => ?_, ?_⟩⟩
  · obtain ⟨f', hder, hy', hb'⟩ := hd'.derivation ν types
    have hfound := hf.complete_start decides_built.isLL1 nullableIsEpsilon_built
      (matchedOnce_built _) hder hy'
    obtain ⟨rfl, -⟩ := Prod.mk.inj (Option.some.inj hfound)
    have hxs := hb.unique hb'
    simpa using hxs.symm
  · rintro rfl
    exact hts ▸ hq

theorem parse_failure (hp : p.grammar = built types) (hfits : ∀ x ∈ tokens.toList, x.Fits)
    (h : (p.parse tokens).runFrom s = (.error e, t)) :
    ((∀ d, ¬ Declares tokens.toList d) ∧
      ((∃ i, e = .notGenerated i) ∨ ∃ i j, e = .trailingTokens i j)) ∨
    (∃ n, p.limits.fuel = some n ∧ e = .fuelExhausted n) ∨
    e = .recursionLimitExceeded p.limits.recursion := by
  have hb : builder.build (Part.loaded types : Registry (Payload ν)) = .ok p.grammar :=
    (build_eq_ok types).trans (by rw [hp])
  rcases (Parser.parse_error h).notGenerates hb (hp ▸ decides_built.isLL1)
    (hp ▸ nullableIsEpsilon_built) (hp ▸ matchedOnce_built _)
    (hp ▸ actionsSucceed_built hfits) with ⟨hn, he⟩ | hlimit
  · refine .inl ⟨fun d hd => hn ?_, he⟩
    obtain ⟨f, hder, hy, -⟩ := hd.derivation ν types
    rw [hp]
    exact ⟨f, hder, hy⟩
  · exact .inr hlimit

theorem firstGarbage?_eq_none_iff {tokens : List Token} :
    firstGarbage? tokens = none ↔ ∀ x ∈ tokens, x.kind ≠ .garbage := by
  simp [firstGarbage?]

theorem read_outcome (types : PartTypes) (source : String) :
    (∃ d, read types source = .ok d ∧ (∀ x ∈ lex source, x.kind ≠ .garbage) ∧
      ¬ NestsTooDeep (reader types : Parser (Payload Empty) Token) (lex source) ∧
      ∀ d', Declares (lex source) d' ↔ d' = d) ∨
    (∃ m, read types source = .error (.malformed m)) ∧
      ((∀ x ∈ lex source, x.kind ≠ .garbage) →
        ¬ NestsTooDeep (reader types : Parser (Payload Empty) Token) (lex source) →
          ∀ d, ¬ Declares (lex source) d) := by
  have hfits : ∀ x ∈ (lex source).toArray.toList, x.Fits := fun x hx => fits_of_mem_lex hx
  unfold read
  rw [parser_eq_ok]
  dsimp only
  cases hg : firstGarbage? (lex source) with
  | some x =>
    refine .inr ⟨⟨_, rfl⟩, fun hnone => ?_⟩
    exact nomatch hg.symm.trans (firstGarbage?_eq_none_iff.mpr hnone)
  | none =>
    dsimp only
    rcases hrun : ((reader types).parse (lex source).toArray).runFrom .empty with ⟨e | v, t⟩
    · refine .inr ⟨⟨_, rfl⟩, fun _ hdeep => ?_⟩
      rcases parse_failure rfl hfits hrun with ⟨hn, -⟩ | ⟨n, hn, -⟩ | rfl
      · exact hn
      · exact nomatch hn
      · exact absurd ⟨_, _, hrun⟩ hdeep
    · obtain ⟨d, hread, hd⟩ := declares_of_parse rfl hfits hrun
      refine .inl ⟨d, ?_, firstGarbage?_eq_none_iff.mp hg, ?_, hd⟩
      · simp only [hread]
      · rintro ⟨n, u, hdeep⟩
        exact nomatch hrun.symm.trans hdeep

theorem read_eq_ok_iff {types : PartTypes} {source : String} :
    read types source = .ok d ↔ (∀ x ∈ lex source, x.kind ≠ .garbage) ∧
      ¬ NestsTooDeep (reader types : Parser (Payload Empty) Token) (lex source) ∧
      Declares (lex source) d := by
  rcases read_outcome types source with ⟨d', hd', hg, hdeep, hd⟩ | ⟨⟨m, hm⟩, hn⟩
  · rw [hd', hd]
    constructor
    · intro h
      exact ⟨hg, hdeep, (Except.ok.inj h).symm⟩
    · rintro ⟨-, -, rfl⟩
      rfl
  · constructor
    · intro h
      exact nomatch hm.symm.trans h
    · rintro ⟨hg, hdeep, hd⟩
      exact absurd hd (hn hg hdeep d)

/-- Reading yields the grammar that a text declares, and exactly the texts in the notation of
grammar text are read. All others are malformed, since no parse of a text ends with two rules that
match or with an action that fails. -/
theorem read_declares (types : PartTypes) (source : String) :
    ∃ p : Parser (Payload Empty) Token, parser types = .ok p ∧
      (∀ d, read types source = .ok d ↔ (∀ x ∈ lex source, x.kind ≠ .garbage) ∧
        ¬ NestsTooDeep p (lex source) ∧ Declares (lex source) d) ∧
      ((∃ d, read types source = .ok d) ↔ (∀ x ∈ lex source, x.kind ≠ .garbage) ∧
        ¬ NestsTooDeep p (lex source) ∧ IsGrammar ((lex source).map Token.kind)) ∧
      (∀ e, read types source = .error e → ∃ m, e = .malformed m) ∧
      ∀ (l : Limits) (s t : Store (Payload Empty)) (e : ParseError),
        ((p.withLimits l).parse (lex source).toArray).runFrom s = (.error e, t) →
          (∀ name first second i, e ≠ .ambiguous name first second i) ∧ ∀ c, e ≠ .eval c := by
  have hfits : ∀ x ∈ (lex source).toArray.toList, x.Fits := fun x hx => fits_of_mem_lex hx
  refine ⟨reader types, parser_eq_ok types, fun d => read_eq_ok_iff, ?_, ?_, fun l s t e hrun => ?_⟩
  · rw [isGrammar_iff fun x hx => fits_of_mem_lex hx]
    simp only [read_eq_ok_iff, exists_and_left]
  · intro e he
    rcases read_outcome types source with ⟨d, hd, -⟩ | ⟨⟨m, hm⟩, -⟩
    · exact nomatch hd.symm.trans he
    · exact ⟨m, Except.error.inj (he.symm.trans hm)⟩
  · rcases parse_failure (p := (reader types).withLimits l) rfl hfits hrun with
      ⟨-, ⟨i, rfl⟩ | ⟨i, j, rfl⟩⟩ | ⟨n, -, rfl⟩ | rfl <;> exact ⟨nofun, nofun⟩

def sampleTypes : PartTypes where
  grammar := ⟨"Grammar"⟩
  rule := ⟨"Rule"⟩
  names := ⟨"Names"⟩
  exprs := ⟨"Exprs"⟩
  expr := ⟨"Expr"⟩
  distinct := by decide

def sampleTokens : List Token :=
  [⟨.symbol, 0, 1, some (.str "S")⟩, ⟨.colon, 1, 2, none⟩, ⟨.symbol, 3, 4, some (.str "a")⟩,
    ⟨.leftBrace, 5, 6, none⟩, ⟨.result, 7, 9, some (.int 0)⟩, ⟨.semicolon, 9, 10, none⟩,
    ⟨.rightBrace, 11, 12, none⟩]

/-- A text with one rule, whose value is that of its symbol. -/
theorem read_declares_sample :
    read sampleTypes "S: a \x7b $0; \x7d" = .ok ⟨[⟨"S", ["a"], [.result 0]⟩], some "S"⟩ := by
  have hlex : lex "S: a \x7b $0; \x7d" = sampleTokens := by decide +kernel
  have hrun : (((reader sampleTypes : Parser (Payload Empty) Token).parse
      sampleTokens.toArray).runFrom .empty).1.toBool = true := by decide +kernel
  obtain ⟨p, hp, hiff, -⟩ := read_declares sampleTypes "S: a \x7b $0; \x7d"
  obtain rfl := Except.ok.inj ((parser_eq_ok _).symm.trans hp)
  rw [hiff, hlex]
  refine ⟨by simp [sampleTokens], ?_, ?_⟩
  · exact not_nestsTooDeep hrun
  · have hexpr : Writes Token.alphabet .expr [⟨.result, 7, 9, some (.int 0)⟩]
        (.expr (.result 0)) := .exprLiteral (.literal (.inl ⟨rfl, 0, 0, rfl, rfl, rfl⟩))
    have hexprs := Writes.exprs hexpr (s := ⟨.semicolon, 9, 10, none⟩) rfl .noExprs
    have hsymbols : Writes Token.alphabet .symbols [⟨.symbol, 3, 4, some (.str "a")⟩]
        (.names ["a"]) := .symbols ⟨rfl, rfl⟩ .noSymbols
    have hsymbol : Token.alphabet.symbol ⟨.symbol, 0, 1, some (.str "S")⟩ "S" := ⟨rfl, rfl⟩
    have hrule : Writes Token.alphabet .rule sampleTokens (.rule ⟨"S", ["a"], [.result 0]⟩) :=
      .rule hsymbol rfl hsymbols rfl hexprs rfl
    exact .grammar hrule .noRules
end ActionGrammar.GrammarText
