import ActionGrammar.Proofs.GrammarText.Printing
import ActionGrammar.Proofs.GrammarText.Read
import ActionGrammar.Proofs.Parse.Viable

/-! # Where grammar text goes wrong

The tokens that a text shares with some grammar text are a viable prefix: what
follows can be written out as text as well. So the furthest token that a parse
has looked at is the first one with which no grammar text goes on.
-/

namespace ActionGrammar.GrammarText

def Token.content (t : Token) : Kind × Option Literal := (t.kind, t.payload)

/-- Some grammar text begins with the tokens, apart from their places. -/
def BeginsGrammar (tokens : List Token) : Prop :=
  ∃ source d, Declares (lex source) d ∧
    tokens.map Token.content <+: (lex source).map Token.content

section

variable {ν : Type} {types : PartTypes} {ts us : List Token} {ss : List Symbol} {f : Forest Token}

/-! ### Derivations of grammar text -/

theorem exists_spells (h : (built types : Grammar (Payload ν) Token).Derives ss f)
    (hfits : ∀ t ∈ f.yield, t.Fits) : ∃ xs, Spells ss f.yield xs := by
  induction h with
  | nil => exact ⟨_, .nil⟩
  | empty _ ih =>
    obtain ⟨xs, h⟩ := ih hfits
    exact ⟨_, .empty h⟩
  | token hm _ ih =>
    obtain ⟨ht, hts⟩ := List.forall_mem_cons.mp hfits
    obtain ⟨xs, h⟩ := ih hts
    rw [(matches_built_iff.mp hm).2]
    exact ⟨_, .token ht h⟩
  | node hr _ _ ihc ih =>
    obtain ⟨hc, hts⟩ := List.forall_mem_append.mp hfits
    obtain ⟨ys, hys⟩ := ihc hc
    obtain ⟨xs, hxs⟩ := ih hts
    obtain ⟨ph, rfl, hk⟩ := rule?_built_eq_some hr
    obtain ⟨p, -, hp⟩ := hys.assembles hk
    exact ⟨_, .phrase hp hxs⟩

theorem generates_built_iff (hfits : ∀ t ∈ ts, t.Fits) :
    (built types : Grammar (Payload ν) Token).Generates ts ↔ ∃ d, Declares ts d := by
  constructor
  · rintro ⟨f, hd, rfl⟩
    obtain ⟨xs, hxs⟩ := exists_spells hd hfits
    have hxs : Spells [Phrase.grammar.asSymbol] f.yield xs := hxs
    obtain ⟨us, vs, p, ys, heq, -, hp, hnil⟩ := spells_phrase_iff.mp hxs
    obtain ⟨rfl, -⟩ := spells_nil_iff.mp hnil
    obtain ⟨d, rfl⟩ := hp.sort
    rw [heq, List.append_nil]
    exact ⟨d, hp⟩
  · rintro ⟨d, hd⟩
    obtain ⟨f, hder, hy, -⟩ := hd.derivation ν types
    exact ⟨f, hder, hy⟩

/-! ### Writing tokens out -/

theorem Token.IsOfText.fits {t : Token} (h : t.IsOfText) : t.Fits := by
  obtain ⟨k, cs, hl, hd⟩ := h
  exact fits_of_decode? hl hd

theorem Writes.ne_blank {ph : Phrase} {p : Part} (h : Writes Token.alphabet ph ts p) :
    ∀ t ∈ ts, t.kind ≠ .blank := by
  induction h with
  | literal ht =>
    refine List.forall_mem_singleton.mpr ?_
    rcases ht with ⟨hk, -⟩ | ⟨hk, -⟩ <;> intro hg <;> rw [hg] at hk <;> exact absurd hk (by decide)
  | _ => simp_all [Token.alphabet, or_imp]

/-- Tokens are the tokens of a text again, in which blanks separate them. -/
theorem exists_text (hts : ∀ t ∈ ts, t.IsOfText ∧ t.kind ≠ .blank) :
    ∃ source, (lex source).map Token.content = ts.map Token.content := by
  have hchars : ∃ cs, ∀ position,
      (lexFrom position cs).map Token.content = ts.map Token.content := by
    induction ts with
    | nil => exact ⟨[], fun _ => rfl⟩
    | cons t ts ih =>
      obtain ⟨⟨⟨k, cs, hl, hd⟩, hb⟩, hts⟩ := List.forall_mem_cons.mp hts
      obtain ⟨ds, hds⟩ := ih hts
      have hk : k ≠ .blank := by
        rintro rfl
        exact hb (congrArg Prod.fst (Option.some.inj hd)).symm
      refine ⟨cs ++ ' ' :: ds, fun position => ?_⟩
      obtain ⟨u, position', hlex, hkind, hpayload⟩ := lexFrom_lexeme hl hk hd position (' ' :: ds)
        (by simp [isWordChar])
      rw [hlex, lexFrom_blank (by decide)]
      simp [hds, Token.content, hkind, hpayload]
  obtain ⟨cs, hcs⟩ := hchars
  refine ⟨String.ofList cs, ?_⟩
  rw [lex_eq, String.toList_ofList]
  exact hcs 0

theorem map_kind_eq (h : ts.map Token.content = us.map Token.content) :
    ts.map Token.kind = us.map Token.kind := by
  have := congrArg (List.map Prod.fst) h
  rwa [List.map_map, List.map_map] at this

theorem declares_congr (hts : ∀ t ∈ ts, t.Fits) (hus : ∀ t ∈ us, t.Fits)
    (h : ts.map Token.content = us.map Token.content) :
    (∃ d, Declares ts d) ↔ ∃ d, Declares us d := by
  rw [← isGrammar_iff hts, ← isGrammar_iff hus, map_kind_eq h]

theorem viable_iff (hts : ∀ t ∈ ts, t.IsOfText) {j : Nat} :
    (built types : Grammar (Payload ν) Token).Viable Token.IsOfText ts j ↔
      BeginsGrammar (ts.take j) := by
  have hall {us : List Token} (hus : ∀ u ∈ us, u.IsOfText) :
      ∀ t ∈ ts.take j ++ us, t.IsOfText := fun t ht =>
    (List.mem_append.mp ht).elim (fun h => hts t (List.mem_of_mem_take h)) (hus t)
  constructor
  · rintro ⟨us, hus, hgen⟩
    obtain ⟨d, hd⟩ := (generates_built_iff fun t ht => (hall hus t ht).fits).mp hgen
    obtain ⟨source, hsource⟩ := exists_text fun t ht => ⟨hall hus t ht, Writes.ne_blank hd t ht⟩
    obtain ⟨d', hd'⟩ := (declares_congr (fun t ht => fits_of_mem_lex ht)
      (fun t ht => (hall hus t ht).fits) hsource).mpr ⟨d, hd⟩
    refine ⟨source, d', hd', ?_⟩
    rw [hsource, List.map_append]
    exact List.prefix_append _ _
  · rintro ⟨source, d, hd, hprefix⟩
    have hus : ∀ u ∈ (lex source).drop (ts.take j).length, u.IsOfText := fun u hu =>
      exists_lexeme_of_mem_lex (List.mem_of_mem_drop hu)
        (Writes.ne_garbage hd u (List.mem_of_mem_drop hu))
    refine ⟨_, hus, (generates_built_iff fun t ht => (hall hus t ht).fits).mpr ?_⟩
    refine (declares_congr (fun t ht => (hall hus t ht).fits) (fun t ht => fits_of_mem_lex ht)
      ?_).mpr ⟨d, hd⟩
    have happ := List.prefix_iff_eq_append.mp hprefix
    rwa [List.length_map, ← List.map_drop, ← List.map_append] at happ

/-! ### Filling in -/

/-- The shortest text of a kind, and the kind of its lexeme. -/
def Kind.sample : Kind → Kind × String
  | .colon => (.colon, ":")
  | .semicolon => (.semicolon, ";")
  | .comma => (.comma, ",")
  | .leftParen => (.leftParen, "(")
  | .rightParen => (.rightParen, ")")
  | .leftBrace => (.leftBrace, "\x7b")
  | .rightBrace => (.rightBrace, "\x7d")
  | .dot => (.dot, ".")
  | .new => (.symbol, "new")
  | .static => (.symbol, "static")
  | .symbol => (.symbol, "a")
  | .str => (.str, "\"\"")
  | .int => (.int, "0")
  | .double => (.double, "0.0")
  | .result => (.result, "$0")
  | .blank => (.blank, " ")
  | .garbage => (.garbage, "")

theorem isLexeme_sample : ∀ k ∈ terminals.map Prod.snd,
    (Progress.start.run k.sample.2.toList).bind Progress.accepts = some k.sample.1 ∧
      (decode? k.sample.1 k.sample.2.toList).map Prod.fst = some k := by
  decide

theorem exists_isOfText {k : Kind} (hk : k ∈ terminals.map Prod.snd) :
    ∃ t : Token, t.kind = k ∧ t.IsOfText := by
  obtain ⟨hl, hd⟩ := isLexeme_sample k hk
  obtain ⟨⟨_, payload⟩, hd, rfl⟩ := Option.map_eq_some_iff.mp hd
  exact ⟨⟨_, 0, 0, payload⟩, rfl, _, _, Option.bind_eq_some_iff.mp hl, hd⟩

theorem fillable_kind {k : Kind} (hk : k ∈ terminals.map Prod.snd) :
    (built types : Grammar (Payload ν) Token).Fillable Token.IsOfText [k.asSymbol] := by
  obtain ⟨t, rfl, ht⟩ := exists_isOfText hk
  exact .terminal (matches_built_iff.mpr ⟨hk, rfl⟩) ht

theorem fillable_rule {ph : Phrase} {k : Nat} {r : Rule (Payload ν)}
    (hr : (rulesOf types ph)[k]? = some r)
    (h : ∀ s ∈ r.symbols, (built types : Grammar (Payload ν) Token).Fillable Token.IsOfText [s]) :
    (built types : Grammar (Payload ν) Token).Fillable Token.IsOfText [ph.asSymbol] :=
  .node ((rule?_built types ph k).trans hr) (.of_forall h)

theorem fillable_epsilon {ph : Phrase} {k : Nat} {r : Rule (Payload ν)}
    (hr : (rulesOf types ph)[k]? = some r) (he : r.isEpsilon = true) :
    (built types : Grammar (Payload ν) Token).Fillable Token.IsOfText [ph.asSymbol] := by
  refine fillable_rule hr ?_
  rw [Grammar.symbols_of_isEpsilon he]
  exact List.forall_mem_singleton.mpr .empty

theorem fillable_phrase (ph : Phrase) :
    (built types : Grammar (Payload ν) Token).Fillable Token.IsOfText [ph.asSymbol] := by
  have hempty : ∀ ph ∈ [Phrase.rules, .symbols, .exprs, .nameTail, .args, .argsTail],
      (built types : Grammar (Payload ν) Token).Fillable Token.IsOfText [ph.asSymbol] := by
    simp only [List.forall_mem_cons]
    refine ⟨?_, ?_, ?_, ?_, ?_, ?_, nofun⟩ <;> exact fillable_epsilon (k := 1) rfl rfl
  have hname : (built types : Grammar (Payload ν) Token).Fillable Token.IsOfText
      [Phrase.name.asSymbol] := by
    refine fillable_rule (k := 0) rfl ?_
    simp only [List.forall_mem_cons]
    exact ⟨fillable_kind (by decide), hempty _ (by decide), nofun⟩
  have hliteral : (built types : Grammar (Payload ν) Token).Fillable Token.IsOfText
      [Phrase.literal.asSymbol] :=
    fillable_rule (k := 0) rfl (List.forall_mem_singleton.mpr (fillable_kind (by decide)))
  have hrule : (built types : Grammar (Payload ν) Token).Fillable Token.IsOfText
      [Phrase.rule.asSymbol] := by
    refine fillable_rule (k := 0) rfl ?_
    simp only [List.forall_mem_cons]
    exact ⟨fillable_kind (by decide), fillable_kind (by decide), hempty _ (by decide),
      fillable_kind (by decide), hempty _ (by decide), fillable_kind (by decide), nofun⟩
  cases ph with
  | grammar =>
    refine fillable_rule (k := 0) rfl ?_
    simp only [List.forall_mem_cons]
    exact ⟨hrule, hempty _ (by decide), nofun⟩
  | rule => exact hrule
  | expr => exact fillable_rule (k := 3) rfl (List.forall_mem_singleton.mpr hliteral)
  | name => exact hname
  | literal => exact hliteral
  | _ => exact hempty _ (by decide)

def alphabet : List Symbol :=
  .terminal ⟨0⟩ :: ((terminals.map fun t => t.2.asSymbol) ++ phrases.map fun ph => ph.2.asSymbol)

theorem symbols_subset_alphabet (types : PartTypes) (ph : Phrase) :
    ∀ r ∈ (rulesOf types ph : List (Rule (Payload ν))), ∀ s ∈ r.symbols, s ∈ alphabet := by
  cases ph <;> exact of_decide_eq_true rfl

theorem fillable_built {nt : NonTerminal} {k : Nat} {r : Rule (Payload ν)}
    (h : (built types : Grammar (Payload ν) Token).rule? nt k = some r) :
    ∀ s ∈ r.symbols, (built types : Grammar (Payload ν) Token).Fillable Token.IsOfText [s] := by
  obtain ⟨ph, rfl, hr⟩ := rule?_built_eq_some h
  intro s hs
  have hmem := symbols_subset_alphabet types ph r (List.mem_of_getElem? hr) s hs
  simp only [alphabet, List.mem_cons, List.mem_append, List.mem_map] at hmem
  rcases hmem with rfl | ⟨t, ht, rfl⟩ | ⟨x, -, rfl⟩
  · exact .empty
  · exact fillable_kind (List.mem_map_of_mem ht)
  · exact fillable_phrase x.2

/-! ### The last test -/

/-- Rules go on until the end, so a text ends only where one more rule was looked for. -/
theorem testsLast_built : (built types : Grammar (Payload ν) Token).TestsLast
    fun nt => nt = Phrase.grammar.nonTerminal ∨ nt = Phrase.rules.nonTerminal where
  rule {nt k r} hnt hr he := by
    obtain ⟨ph, rfl, hk⟩ := rule?_built_eq_some hr
    refine ⟨[Phrase.rule.asSymbol], Phrase.rules.nonTerminal, ?_, .inr rfl⟩
    rcases hnt with hnt | hnt <;> obtain rfl := nonTerminal_injective hnt
    · match k with
      | 0 => obtain rfl := Option.some.inj hk; rfl
    · match k with
      | 0 => obtain rfl := Option.some.inj hk; rfl
      | 1 => obtain rfl := Option.some.inj hk; cases he
  epsilon {nt k r} hnt hr he := by
    have hsymbol : (built types : Grammar (Payload ν) Token).TestsFirst Kind.symbol.asSymbol :=
      .terminal (by decide)
    have hrule : (built types : Grammar (Payload ν) Token).TestsFirst Phrase.rule.asSymbol :=
      .nonTerminal (rule?_built types .rule 0) rfl rfl hsymbol
    rcases hnt with rfl | rfl
    · exact .nonTerminal (rule?_built types .grammar 0) rfl rfl hrule
    · exact .nonTerminal (rule?_built types .rules 0) rfl rfl hrule

/-- The furthest test of a parse of text ends the longest prefix of a grammar text. -/
theorem isGreatest_beginsGrammar {tokens : List Token} {m : Nat} {o : Option (Forest Token × Nat)}
    (hts : ∀ t ∈ tokens, t.IsOfText)
    (h : (built types : Grammar (Payload ν) Token).Recognizes tokens [.nonTerminal ⟨0⟩] 0 o)
    (hm : IsLUB {i | (built types : Grammar (Payload ν) Token).Visits tokens [.nonTerminal ⟨0⟩] 0
      (.test i)} m) :
    IsGreatest {j | j ≤ tokens.length ∧ BeginsGrammar (tokens.take j)} m := by
  have hgreatest := Grammar.isGreatest_viable (P := Token.IsOfText) (decides_built.isLL1)
    nullableIsEpsilon_built matchedOnce_built testsLast_built (.inl rfl) fillable_built
    (fillable_phrase .grammar) h hm
  simpa only [viable_iff hts] using hgreatest

end

theorem explain_parse {types : PartTypes} {source : String} {t : Store (Payload Empty)}
    {e : ParseError} (hg : ∀ x ∈ lex source, x.kind ≠ .garbage)
    (hdeep : ¬ NestsTooDeep (reader types : Parser (Payload Empty) Token) (lex source))
    (h : ((reader types).parse (lex source).toArray).runFrom .empty = (.error e, t)) :
    ∃ j, IsGreatest {j | j ≤ (lex source).length ∧ BeginsGrammar ((lex source).take j)} j ∧
      explain source (lex source) e = unexpected source (lex source) j := by
  have hts : ∀ x ∈ lex source, x.IsOfText := fun x hx => exists_lexeme_of_mem_lex hx (hg x hx)
  have hfits : ∀ x ∈ (lex source).toArray.toList, x.Fits := fun x hx => fits_of_mem_lex hx
  have hreport := Parser.parse_error_reports h
  have hfail := Parser.parse_error h
  rcases parse_failure rfl hfits h with ⟨-, ⟨i, rfl⟩ | ⟨i, j, rfl⟩⟩ | ⟨n, hn, -⟩ | rfl
  · cases hfail with
    | notGenerated hr => exact ⟨i, isGreatest_beginsGrammar hts hr hreport.1, rfl⟩
    | cause hc => cases hc
  · cases hfail with
    | trailing hr _ => exact ⟨j, isGreatest_beginsGrammar hts hr hreport.1, rfl⟩
    | cause hc => cases hc
  · cases hn
  · exact absurd ⟨_, _, h⟩ hdeep

/-- Text that is no grammar is malformed at the first token with which it leaves all grammar texts,
or at its end if it only stops too early. -/
theorem read_unexpected {types : PartTypes} {source : String} {p : Parser (Payload Empty) Token}
    (hp : parser types = .ok p) (hg : ∀ x ∈ lex source, x.kind ≠ .garbage)
    (hdeep : ¬ NestsTooDeep p (lex source)) (hn : ∀ d, ¬ Declares (lex source) d) :
    ∃ j, IsGreatest {j | j ≤ (lex source).length ∧ BeginsGrammar ((lex source).take j)} j ∧
      (∀ t, (lex source)[j]? = some t → read types source =
        .error (.malformed ⟨"unexpected `" ++ t.text source ++ "`", t.start, t.stop⟩)) ∧
      (j = (lex source).length → read types source = .error (.malformed
        ⟨"unexpected end of grammar text", source.utf8ByteSize, source.utf8ByteSize⟩)) := by
  obtain rfl := Except.ok.inj ((parser_eq_ok types).symm.trans hp)
  rcases hrun : ((reader types : Parser (Payload Empty) Token).parse
    (lex source).toArray).runFrom .empty with ⟨e | v, t⟩
  · obtain ⟨j, hj, he⟩ := explain_parse hg hdeep hrun
    have hread : read types source = .error (.malformed (unexpected source (lex source) j)) := by
      unfold read
      rw [parser_eq_ok]
      simp only [firstGarbage?_eq_none_iff.mpr hg, hrun, he]
    refine ⟨j, hj, fun t ht => ?_, fun hlen => ?_⟩
    · rw [hread, unexpected, ht]
    · rw [hread, unexpected, List.getElem?_eq_none (Nat.le_of_eq hlen.symm)]
  · obtain ⟨d, -, hd⟩ := declares_of_parse rfl (fun x hx => fits_of_mem_lex hx) hrun
    exact absurd ((hd d).mpr rfl) (hn d)

def brokenText : String := "S: a \x7b $0 \x7d"

def brokenTokens : List Token :=
  [⟨.symbol, 0, 1, some (.str "S")⟩, ⟨.colon, 1, 2, none⟩, ⟨.symbol, 3, 4, some (.str "a")⟩,
    ⟨.leftBrace, 5, 6, none⟩, ⟨.result, 7, 9, some (.int 0)⟩, ⟨.rightBrace, 10, 11, none⟩]

theorem lex_brokenText : lex brokenText = brokenTokens := rfl

theorem parse_brokenTokens : ∃ t, ((reader sampleTypes : Parser (Payload Empty) Token).parse
    brokenTokens.toArray).runFrom .empty = (.error (.notGenerated 5), t) := by
  have hrun : (((reader sampleTypes : Parser (Payload Empty) Token).parse
      brokenTokens.toArray).runFrom .empty).1 = .error (.notGenerated 5) := by decide +kernel
  rcases hpair : ((reader sampleTypes : Parser (Payload Empty) Token).parse
      brokenTokens.toArray).runFrom .empty with ⟨result, t⟩
  rw [hpair] at hrun
  exact ⟨t, by rw [show result = .error (.notGenerated 5) from hrun]⟩

/-- The brace that closes the action is unexpected. -/
theorem read_unexpected_brace :
    IsGreatest {j | j ≤ 6 ∧ BeginsGrammar (brokenTokens.take j)} 5 ∧
      read sampleTypes brokenText = .error (.malformed ⟨"unexpected `\x7d`", 10, 11⟩) := by
  obtain ⟨t, hrun⟩ := parse_brokenTokens
  have hg : ∀ x ∈ lex brokenText, x.kind ≠ .garbage := by
    rw [lex_brokenText]
    decide
  have hdeep : ¬ NestsTooDeep (reader sampleTypes : Parser (Payload Empty) Token)
      (lex brokenText) := by
    rw [lex_brokenText]
    rintro ⟨n, u, h⟩
    cases hrun.symm.trans h
  have hn : ∀ d, ¬ Declares (lex brokenText) d := by
    have hfits : ∀ x ∈ (lex brokenText).toArray.toList, x.Fits := fun x hx => fits_of_mem_lex hx
    rw [lex_brokenText] at hfits ⊢
    rcases parse_failure rfl hfits hrun with ⟨hn, -⟩ | ⟨n, hn, -⟩ | h
    · exact hn
    · cases hn
    · cases h
  have hts : ∀ x ∈ brokenTokens, x.IsOfText := by
    rw [← lex_brokenText]
    exact fun x hx => exists_lexeme_of_mem_lex hx (hg x hx)
  have hfive : IsGreatest {j | j ≤ 6 ∧ BeginsGrammar (brokenTokens.take j)} 5 := by
    have hreport := Parser.parse_error_reports hrun
    cases Parser.parse_error hrun with
    | notGenerated hr => exact isGreatest_beginsGrammar hts hr hreport.1
    | cause hc => cases hc
  obtain ⟨j, hj, htoken, -⟩ := read_unexpected (parser_eq_ok sampleTypes) hg hdeep hn
  rw [lex_brokenText] at hj htoken
  obtain rfl : j = 5 := hj.unique hfive
  have htext : Token.text ⟨.rightBrace, 10, 11, none⟩ brokenText = "\x7d" := by decide +kernel
  have hread := htoken ⟨.rightBrace, 10, 11, none⟩ rfl
  rw [htext] at hread
  exact ⟨hj, hread⟩

end ActionGrammar.GrammarText
