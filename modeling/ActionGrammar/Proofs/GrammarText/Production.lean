import ActionGrammar.Proofs.Grammar.WellFormed
import ActionGrammar.Proofs.GrammarText.Partition
import ActionGrammar.Proofs.GrammarText.RoundTrip
import ActionGrammar.Proofs.GrammarText.Unexpected
import ActionGrammar.Proofs.GrammarText.Verbatim

/-! # Productions are read back but for their left side

The symbols of a printed production are quoted where their names are no identifiers, and
the name of its nonterminal never is. So the colon and the symbols are always read back,
and the production as a whole is exactly if the nonterminal is named by an identifier.
-/

namespace ActionGrammar

namespace GrammarText

def symbolContent (name : String) : Kind × Option Literal := (.symbol, some (.str name))

/-- The text holds a symbol, a colon and further symbols, and nothing else. -/
def HoldsProduction (text name : String) (names : List String) : Prop :=
  (lex text).map Token.content = symbolContent name :: (.colon, none) :: names.map symbolContent

def rightSide (names : List String) : String :=
  " :" ++ String.join (names.map fun n => " " ++ Grammar.symbolText n)

theorem toList_rightSide (names : List String) :
    (rightSide names).toList = ' ' :: ':' :: symbolsText names := by
  simp [rightSide, symbolsText, List.flatMap_map]

theorem map_content_symbolsText {names : List String} (h : ∀ n ∈ names, IsSymbolName n)
    (position : Nat) :
    (lexFrom position (symbolsText names)).map Token.content = names.map symbolContent := by
  induction names generalizing position with
  | nil => rfl
  | cons n names ih =>
    obtain ⟨hn, hnames⟩ := List.forall_mem_cons.mp h
    obtain ⟨hl, hd⟩ := hn.lexeme
    have htext : symbolsText (n :: names) =
        ' ' :: ((Grammar.symbolText n).toList ++ symbolsText names) := by simp [symbolsText]
    have hsep : Separated (symbolsText names ++ []) :=
      separated_flatMap (c := ' ') (fun _ => rfl) (by decide) (by simp [Separated]) names
    rw [List.append_nil] at hsep
    obtain ⟨t, position', hlex, hk, hp⟩ := lexFrom_lexeme hl (by decide) hd
      (position + byteSize [' ']) (symbolsText names) fun c hc => ⟨(hsep c hc).1, .inr rfl⟩
    rw [htext, lexFrom_blank rfl, hlex, List.map_cons, ih hnames, List.map_cons, Token.content,
      hk, hp]
    rfl

theorem lexFrom_colon (position : Nat) (rest : List Char) :
    lexFrom position (':' :: rest) =
      ⟨.colon, position, position + byteSize [':'], none⟩ ::
        lexFrom (position + byteSize [':']) rest := by
  have hrun : Progress.start.run [':'] = some (.mark .colon) := rfl
  exact lexFrom_append hrun rfl (by decide) rfl position rest fun _ _ => rfl

/-- The right side is read back behind any nonterminal that is quoted where it has to be. -/
theorem holdsProduction_symbolText {name : String} {names : List String} (hn : IsSymbolName name)
    (h : ∀ n ∈ names, IsSymbolName n) :
    HoldsProduction (Grammar.symbolText name ++ rightSide names) name names := by
  obtain ⟨hl, hd⟩ := hn.lexeme
  obtain ⟨t, position, hlex, hk, hp⟩ := lexFrom_lexeme hl (by decide) hd 0
    (' ' :: ':' :: symbolsText names) (by simp [isWordChar])
  rw [HoldsProduction, lex_eq, String.toList_append, toList_rightSide, hlex, lexFrom_blank rfl,
    lexFrom_colon, List.map_cons, List.map_cons, map_content_symbolsText h, Token.content, hk, hp]
  rfl

/-! ### Names that are no identifiers -/

theorem isIdentifier_of_decode? {cs : List Char} {name : String}
    (hi : DottedName.isIdentifier cs = true) (hd : decode? .symbol cs = some (symbolContent name)) :
    DottedName.isIdentifier name.toList = true := by
  have hname : symbolName cs = String.ofList cs := by
    unfold symbolName
    split
    · exact nomatch hi
    · rfl
  simp only [decode?, hname] at hd
  split at hd
  · cases hd
  · split at hd
    · cases hd
    · cases hd
      rwa [String.toList_ofList]

theorem head?_text_eq_quote {source name : String} {t : Token} (ht : t ∈ lex source)
    (hc : t.content = symbolContent name) (hn : DottedName.isIdentifier name.toList = false) :
    (t.text source).toList.head? = some '\'' := by
  obtain ⟨hk, hp⟩ := Prod.mk.inj hc
  obtain ⟨k, hl, hd⟩ := exists_text_of_mem_lex ht (by simp [hk])
  rw [hk, hp] at hd
  obtain rfl : k = .symbol := by simpa [eq_comm] using kind_of_decode? hd
  rcases isLexeme_symbol_iff.mp hl with hi | ⟨c, -, htext⟩
  · exact absurd (isIdentifier_of_decode? hi hd) (by simp [hn])
  · rw [htext]
    rfl

theorem head?_text_eq {source : String} {t : Token} {ts : List Token} (h : lex source = t :: ts) :
    ∃ gap rest, source.toList = gap ++ rest ∧ (∀ c ∈ gap, isBlank c = true) ∧
      (t.text source).toList.head? = rest.head? := by
  have htiles := tiles_lex source
  rw [h] at htiles
  generalize hsource : source.toList = text at htiles
  cases htiles with
  | @token _ gap cs rest _ _ hgap hne hstart hstop _ =>
    have htext : t.text source = String.ofList cs := by
      rw [Token.text, hstop, hstart, Nat.zero_add]
      exact textBetween_eq hsource
    refine ⟨gap, cs ++ rest, rfl, hgap, ?_⟩
    rw [htext, String.toList_ofList, List.head?_append_of_ne_nil _ hne]

theorem not_holdsProduction {name : String} {names : List String} (hn : IsSymbolName name)
    (hi : DottedName.isIdentifier name.toList = false) :
    ¬ HoldsProduction (name ++ rightSide names) name names := by
  intro h
  obtain ⟨c, hc, hname⟩ := hn.spelled.resolve_left (by simp [hi])
  obtain ⟨t, ts, hlex, ht, -⟩ := List.map_eq_cons_iff.mp h
  obtain ⟨gap, rest, hsource, hgap, hhead⟩ := head?_text_eq hlex
  rw [head?_text_eq_quote (hlex ▸ List.mem_cons_self) ht hi] at hhead
  obtain ⟨rest, rfl⟩ := List.head?_eq_some_iff.mp hhead.symm
  rw [String.toList_append, hname, toList_rightSide] at hsource
  -- The quote would have to stand behind blanks alone, and in front of the colon there is none.
  match gap, hsource, hgap with
  | [], hsource, _ => exact hc (List.cons.inj hsource).1
  | [_], hsource, _ => exact absurd (List.cons.inj (List.cons.inj hsource).2).1 (by decide)
  | [_, _], hsource, _ =>
    exact absurd (List.cons.inj (List.cons.inj (List.cons.inj hsource).2).2).1 (by decide)
  | _ :: _ :: d :: _, hsource, hgap =>
    obtain rfl : ':' = d := (List.cons.inj (List.cons.inj (List.cons.inj hsource).2).2).1
    exact absurd (hgap ':' (by simp)) (by decide)

theorem holdsProduction_iff {name : String} {names : List String} (hn : IsSymbolName name)
    (h : ∀ n ∈ names, IsSymbolName n) :
    HoldsProduction (name ++ rightSide names) name names ↔
      DottedName.isIdentifier name.toList = true := by
  constructor
  · intro hread
    by_contra hi
    exact not_holdsProduction hn (by simpa using hi) hread
  · intro hi
    have hsymbol := holdsProduction_symbolText hn h
    rwa [Grammar.symbolText, if_pos hi] at hsymbol

end GrammarText

/-! ### Productions of built grammars -/

open GrammarText

variable {π τ : Type}

namespace Grammar

variable {g : Grammar π τ}

/-- Every symbol has a name that grammar text has for symbols. -/
structure IsWritable (g : Grammar π τ) : Prop where
  terminals : ∀ t ∈ g.terminals, IsSymbolName t.name
  nonTerminals : ∀ set ∈ g.nonTerminals, IsSymbolName set.name

theorem IsWritable.nonTerminalName (h : g.IsWritable) {nt : NonTerminal} {name : String}
    (hn : g.nonTerminalName nt = .ok name) : IsSymbolName name := by
  obtain ⟨set, hset, hname⟩ := bind_eq_ok_iff.mp hn
  obtain rfl : set.name = name := Except.ok.inj hname
  unfold ruleSet at hset
  split at hset
  · rename_i set' hget
    obtain rfl := Except.ok.inj hset
    exact h.nonTerminals _ (Array.mem_of_getElem? hget)
  · contradiction

theorem IsWritable.symbolName (h : g.IsWritable) {s : Symbol} {name : String}
    (hn : g.symbolName s = .ok name) : IsSymbolName name := by
  cases s with
  | nonTerminal nt => exact h.nonTerminalName hn
  | terminal id =>
    obtain ⟨t, ht, hname⟩ := bind_eq_ok_iff.mp hn
    obtain rfl : t.name = name := Except.ok.inj hname
    unfold Grammar.terminal at ht
    split at ht
    · rename_i t' hget
      obtain rfl := Except.ok.inj ht
      exact h.terminals _ (Array.mem_of_getElem? hget)
    · contradiction

theorem production_eq_ok_iff {nt : NonTerminal} {rule : Rule π} {text : String} :
    g.production nt rule = .ok text ↔ ∃ name names, g.nonTerminalName nt = .ok name ∧
      rule.symbols.mapM g.symbolName = .ok names ∧ text = name ++ rightSide names := by
  unfold production rightSide
  simp only [bind_eq_ok_iff, pure, Except.pure, Except.ok.injEq, String.append_assoc]
  constructor
  · rintro ⟨name, hname, names, hnames, rfl⟩
    exact ⟨name, names, hname, hnames, rfl⟩
  · rintro ⟨name, names, hname, hnames, rfl⟩
    exact ⟨name, hname, names, hnames, rfl⟩

end Grammar

namespace Builder

variable {b : Builder τ} {r : Registry π} {g : Grammar π τ}

/-- Where all symbols have names that grammar text has for them, a printed production is read back
exactly if its nonterminal is named by an identifier. Its right side always is, and all of it would
be if the nonterminal were quoted like the symbols. -/
theorem production_reads_back (hb : b.build r = .ok g) (hw : g.IsWritable) {nt : NonTerminal}
    {rules : List (Rule π)} (hrules : g.rules nt = .ok rules) {rule : Rule π}
    (hrule : rule ∈ rules) :
    ∃ name names, g.nonTerminalName nt = .ok name ∧
      rule.symbols.mapM g.symbolName = .ok names ∧
      g.production nt rule = .ok (name ++ rightSide names) ∧
      (HoldsProduction (name ++ rightSide names) name names ↔
        DottedName.isIdentifier name.toList = true) ∧
      HoldsProduction (Grammar.symbolText name ++ rightSide names) name names := by
  obtain ⟨k, hk⟩ := List.mem_iff_getElem?.mp hrule
  have hget : g.rule? nt k = some rule := (Grammar.rule?_eq_getElem? hrules k).trans hk
  obtain ⟨text, htext⟩ := (isClosed_of_build hb).production_isOk hget
  obtain ⟨name, names, hname, hnames, rfl⟩ := Grammar.production_eq_ok_iff.mp htext
  have hn : IsSymbolName name := hw.nonTerminalName hname
  have hns : ∀ n ∈ names, IsSymbolName n := by
    intro n hn
    obtain ⟨s, -, hs⟩ := exists_of_forall₂ (mapM_eq_ok_iff.mp hnames) hn
    exact hw.symbolName hs
  exact ⟨name, names, hname, hnames, htext, holdsProduction_iff hn hns,
    holdsProduction_symbolText hn hns⟩

def signedBuilder : Builder GrammarText.Token :=
  ⟨[(emptyStringName, none), ("num", some (.reference .int)), ("-", some (.reference .symbol))],
    [("Term", [⟨["+", "num"], [.result 1]⟩]), ("+", [⟨["-"], [.result 0]⟩])], none⟩

def signedGrammar : Grammar Empty GrammarText.Token where
  terminals := #[⟨emptyStringName, none⟩, ⟨"num", some (.reference .int)⟩,
    ⟨"-", some (.reference .symbol)⟩]
  nonTerminals := #[⟨"Term", [⟨[.nonTerminal ⟨1⟩, .terminal ⟨1⟩], [.result 1]⟩]⟩,
    ⟨"+", [⟨[.terminal ⟨2⟩], [.result 0]⟩]⟩]
  start := ⟨0⟩

theorem build_signedBuilder : signedBuilder.build Language.listRegistry = .ok signedGrammar := by
  rfl

theorem signedGrammar_isWritable : signedGrammar.IsWritable := by
  have hname : ∀ n ∈ [emptyStringName, "num", "-", "Term", "+"], IsSymbolName n := by
    simp only [List.forall_mem_cons, List.not_mem_nil, false_implies, implies_true, and_true]
    refine ⟨⟨.inl (by decide), by decide⟩, ⟨.inl (by decide), by decide⟩, ⟨.inr ?_, by decide⟩,
      ⟨.inl (by decide), by decide⟩, ⟨.inr ?_, by decide⟩⟩
    · exact ⟨'-', by decide, rfl⟩
    · exact ⟨'+', by decide, rfl⟩
  constructor
  · intro t ht
    apply hname
    simp only [signedGrammar, List.mem_toArray, List.mem_cons, List.not_mem_nil, or_false] at ht
    rcases ht with rfl | rfl | rfl <;> simp
  · intro set hset
    apply hname
    simp only [signedGrammar, List.mem_toArray, List.mem_cons, List.not_mem_nil, or_false] at hset
    rcases hset with rfl | rfl <;> simp

/-- A sign on the right side is quoted, and the production is read back. -/
theorem production_reads_back_term :
    ∃ rule, signedGrammar.rules ⟨0⟩ = .ok [rule] ∧
      signedGrammar.production ⟨0⟩ rule = .ok "Term : '+' num" ∧
      HoldsProduction "Term : '+' num" "Term" ["+", "num"] := by
  have hrules : signedGrammar.rules ⟨0⟩ =
      .ok [⟨[.nonTerminal ⟨1⟩, .terminal ⟨1⟩], [.result 1]⟩] := rfl
  obtain ⟨name, names, hname, hnames, hprint, hread, -⟩ := production_reads_back
    build_signedBuilder signedGrammar_isWritable hrules (List.mem_singleton_self _)
  obtain rfl : "Term" = name := Except.ok.inj hname
  obtain rfl : ["+", "num"] = names := Except.ok.inj hnames
  have htext : "Term" ++ rightSide ["+", "num"] = "Term : '+' num" := by rfl
  rw [htext] at hprint hread
  exact ⟨_, hrules, hprint, hread.mpr (by decide)⟩

/-- A sign on the left side is not quoted, and it is garbage, so not all printed productions are
read back. -/
theorem production_unread :
    signedGrammar.production ⟨1⟩ ⟨[.terminal ⟨2⟩], [.result 0]⟩ = .ok "+ : '-'" ∧
    (lex "+ : '-'").map Token.content =
      [(.garbage, none), (.colon, none), symbolContent "-"] ∧
    ¬ ∀ (b : Builder GrammarText.Token) (r : Registry Empty) g, b.build r = .ok g →
      g.IsWritable → ∀ nt rules rule, g.rules nt = .ok rules → rule ∈ rules →
        ∃ name names text, g.nonTerminalName nt = .ok name ∧
          rule.symbols.mapM g.symbolName = .ok names ∧ g.production nt rule = .ok text ∧
          HoldsProduction text name names := by
  have hprint : signedGrammar.production ⟨1⟩ ⟨[.terminal ⟨2⟩], [.result 0]⟩ = .ok "+ : '-'" := by
    rfl
  have hlex : (lex "+ : '-'").map Token.content =
      [(.garbage, none), (.colon, none), symbolContent "-"] := by
    rfl
  refine ⟨hprint, hlex, fun h => ?_⟩
  obtain ⟨name, names, text, hname, -, htext, hread⟩ := h _ _ _ build_signedBuilder
    signedGrammar_isWritable ⟨1⟩ _ _ rfl (List.mem_singleton_self _)
  obtain rfl := Except.ok.inj (hprint.symm.trans htext)
  rw [HoldsProduction, hlex] at hread
  exact nomatch (List.cons.inj hread).1

end Builder

end ActionGrammar
