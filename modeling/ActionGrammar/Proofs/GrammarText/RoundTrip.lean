import ActionGrammar.Language
import ActionGrammar.Proofs.Grammar.Dump
import ActionGrammar.Proofs.GrammarText.Printing
import ActionGrammar.Proofs.GrammarText.Read

/-! # Grammars survive being written and read

A grammar that is read from a text is written as a text that is read as the same
grammar again, over the same terminals and with the same registry. The text
declares the rules of the first one, group by group.
-/

namespace ActionGrammar

open GrammarText GrammarDecl

variable {π τ : Type}

theorem Language.nonTerminals_of_stageTerminals [Token τ] {ts : List (String × τ)}
    {b b' : Builder τ} {u : Unit} (h : (stageTerminals ts).runFrom b = (.ok u, b')) :
    b'.nonTerminals = b.nonTerminals := by
  induction ts generalizing b with
  | nil =>
    cases h
    rfl
  | cons t ts ih =>
    obtain ⟨_, b₁, h₁, h₂⟩ := Attempt.runFrom_bind_eq_ok_iff.mp h
    rw [ih h₂, Builder.nonTerminals_of_registerTerminal h₁]

theorem Language.readGrammar_eq_ok_iff [Token τ] {types : PartTypes} {text : String}
    {terminals : List (String × τ)} {r : Registry π} {g : Grammar π τ} :
    readGrammar types text terminals r = .ok g ↔
      ∃ d u v b b', read types text = .ok d ∧
        (stageTerminals terminals).runFrom .empty = (.ok u, b) ∧
        d.stage.runFrom b = (.ok v, b') ∧ b'.build r = .ok g := by
  simp only [readGrammar, bind_eq_ok_iff, mapError_eq_ok_iff, Staging.build_eq_ok_iff,
    Attempt.runFrom_bind_eq_ok_iff]
  constructor
  · rintro ⟨d, hd, v, b', ⟨u, b, hu, hv⟩, hb⟩
    exact ⟨d, u, v, b, b', hd, hu, hv, hb⟩
  · rintro ⟨d, u, v, b, b', hd, hu, hv, hb⟩
    exact ⟨d, hd, v, b', ⟨u, b, hu, hv⟩, hb⟩

theorem Builder.isPrintable_of_build {b : Builder τ} {r : Registry π} {g : Grammar π τ}
    (hb : b.build r = .ok g) (hr : r.IsDeclared)
    (hnames : ∀ set ∈ g.nonTerminals, DottedName.isIdentifier set.name.toList = true)
    (hdoubles : ∀ set ∈ g.nonTerminals, ∀ rule ∈ set.rules, ∀ e ∈ rule.action, e.IsDoubleFree)
    {x : RuleDecl} (hx : x ∈ ungrouped b.nonTerminals) (ht : x.IsOfText) : x.IsPrintable := by
  obtain ⟨entry, hentry, hx⟩ := List.mem_flatMap.mp hx
  obtain ⟨staged, hstaged, rfl⟩ := List.mem_map.mp hx
  obtain ⟨first, rest, start, sets, -, -, hsets, rfl⟩ := Builder.build_eq_ok_iff.mp hb
  obtain ⟨set, hset, hf⟩ := exists_of_forall₂_left hsets hentry
  obtain ⟨-, hname, hrules⟩ := Builder.finishRules_eq_ok_iff.mp hf
  obtain ⟨rule, hrule, hf⟩ := exists_of_forall₂_left hrules hstaged
  obtain ⟨haction, hnamed⟩ :=
    Template.eq_mapAll_of_resolveAll hr _ (Builder.finishRule_eq_ok_iff.mp hf).2
  have hset : set ∈ sets.toArray := by simpa using hset
  have hid := hnames set hset
  rw [hname] at hid
  refine ⟨⟨hid, ht.nonTerminal.notKeyword⟩, ht.symbols, fun t hmem => ?_⟩
  have hdouble : t.IsDoubleFree := by
    have hmem : t ∈ rule.action.map (Expr.map MethodGroup.name) := by
      rw [← Expr.mapAll_eq_map, ← haction]
      exact hmem
    obtain ⟨e, he, rfl⟩ := List.mem_map.mp hmem
    exact Expr.everywhere_map (hdoubles set hset rule hrule e he)
  exact (ht.action t hmem).isPrintable <|
    (hnamed t hmem).and hdouble (fun _ hw _ => hw) (fun _ _ hl => hl) fun _ _ _ => trivial

theorem GrammarDecl.regrouped_cons (r : RuleDecl) (rs : List RuleDecl) (start : Option String) :
    ∃ r' rs', regrouped ⟨r :: rs, start⟩ = ⟨r' :: rs', start⟩ ∧ r'.nonTerminal = r.nonTerminal := by
  obtain ⟨rules, rest, hgroups⟩ := grouped_cons r rs
  have hne := (isGrouped_grouped (r :: rs)).rules (r.nonTerminal, rules) (by simp [hgroups])
  obtain ⟨rule, rules, rfl⟩ := List.exists_cons_of_ne_nil hne
  refine ⟨⟨r.nonTerminal, rule.symbols, rule.action⟩,
    groupRules (r.nonTerminal, rules) ++ ungrouped rest, ?_, rfl⟩
  rw [regrouped, hgroups]
  rfl

namespace Language

variable [Token τ]

/-- The text of a grammar is read as the grammar itself: with the same start, the same rules in
the same order, and thus the same text. This takes nonterminals that are identifiers and constants
that are no doubles, and a text that is not nested too deep. -/
theorem readGrammar_dump {types : PartTypes} {text : String} {terminals : List (String × τ)}
    {r : Registry π} {g : Grammar π τ} (hr : r.IsDeclared)
    (h : readGrammar types text terminals r = .ok g)
    (hnames : ∀ set ∈ g.nonTerminals, DottedName.isIdentifier set.name.toList = true)
    (hdoubles : ∀ set ∈ g.nonTerminals, ∀ rule ∈ set.rules, ∀ e ∈ rule.action, e.IsDoubleFree) :
    ∃ (dump : String) (p : Parser (Payload Empty) GrammarText.Token), g.dump = .ok dump ∧
      GrammarText.parser types = .ok p ∧
      (¬ NestsTooDeep p (lex dump) → (∃ d, read types dump = .ok d) ∧
        readGrammar types dump terminals r = .ok g) := by
  obtain ⟨d, u, v, b, b', hd, hterminals, hstage, hb⟩ := readGrammar_eq_ok_iff.mp h
  obtain ⟨hgarbage, -, hdeclares⟩ := read_eq_ok_iff.mp hd
  have htext := isOfText_of_declares hgarbage hdeclares
  obtain ⟨r₀, rs, rfl⟩ := start_of_declares hdeclares
  have hempty : b.nonTerminals = [] := nonTerminals_of_stageTerminals hterminals
  have hb' := eq_of_stage hempty rfl hstage
  have hstart : g.start = ⟨0⟩ := by
    obtain ⟨rules, rest, hgroups⟩ := grouped_cons r₀ rs
    exact Builder.start_of_build hb (by rw [hb', hgroups]) (by rw [hb']; rfl)
  -- The text is that of the regrouped declaration, which is read from it and staged in its place.
  have hdump := Builder.dump_of_build hb hr hstart
  have hrules : ungrouped b'.nonTerminals = (regrouped ⟨r₀ :: rs, some r₀.nonTerminal⟩).rules := by
    rw [hb']
    rfl
  have hprintable : ∀ x ∈ (regrouped ⟨r₀ :: rs, some r₀.nonTerminal⟩).rules, x.IsPrintable :=
    fun x hx => Builder.isPrintable_of_build hb hr hnames hdoubles (hrules ▸ hx)
      (htext x (mem_ungrouped_grouped.mp hx))
  have hstage' := stage_regrouped hempty hstage
  rw [hrules] at hdump
  obtain ⟨r', rs', hregrouped, hname⟩ := regrouped_cons r₀ rs (some r₀.nonTerminal)
  rw [hregrouped] at hdump hprintable hstage'
  have hdeclares' := declares_text hprintable
  rw [hname] at hdeclares'
  refine ⟨_, reader types, hdump, parser_eq_ok types, fun hdeep => ?_⟩
  have hread := read_eq_ok_iff.mpr ⟨Writes.ne_garbage hdeclares', hdeep, hdeclares'⟩
  exact ⟨⟨_, hread⟩, readGrammar_eq_ok_iff.mpr ⟨_, u, v, b, b', hread, hterminals, hstage', hb⟩⟩

/-! ### A grammar with a sign and a string -/

def listDecl : TypeDecl Empty :=
  ⟨"List", [.static "of" [.str, .any] fun _ => throw (.failed "unused")]⟩

def listRegistry : Registry Empty := ⟨[⟨"base", [listDecl.typeDef]⟩]⟩

theorem listRegistry_isDeclared : listRegistry.IsDeclared := by
  have h : Module.ofDecls "base" [listDecl] = .ok ⟨"base", [listDecl.typeDef]⟩ := by cbv
  simpa [Registry.IsDeclared, listRegistry] using ⟨_, _, h⟩

def signRule : RuleDecl :=
  ⟨"Sign", ["+"], [.static "List.of" [.constant (.str "plus"), .result 0]]⟩

theorem signRule_isPrintable : signRule.IsPrintable := by
  have hname : IsPrintableName "List.of" := ⟨["List", "of"], by simp, by decide, by decide⟩
  have hstr : (Literal.str "plus").IsPrintable :=
    ⟨.str, by simp, ⟨.stringEnd, by decide, rfl⟩, by decide⟩
  constructor
  · decide
  · simp only [signRule, List.forall_mem_singleton]
    exact ⟨.inr ⟨'+', by decide, rfl⟩, by simp⟩
  · simp only [signRule, List.forall_mem_singleton]
    apply Expr.Everywhere.static hname
    rintro e (_ | ⟨_, _ | ⟨_, ⟨⟩⟩⟩)
    · exact .constant hstr
    · exact .result ⟨0, rfl⟩

def signText : String := "Sign : '+' \x7b static List.of(\"plus\", $0); \x7d\n"

theorem signText_shallow :
    ¬ NestsTooDeep (reader sampleTypes : Parser (Payload Empty) GrammarText.Token)
      (lex signText) :=
  not_nestsTooDeep (by decide +kernel)

theorem read_signText : read sampleTypes signText = .ok ⟨[signRule], some "Sign"⟩ := by
  have htext : String.join ([signRule].map RuleDecl.text) = signText := rfl
  have hd := declares_text (List.forall_mem_singleton.mpr signRule_isPrintable)
  rw [htext] at hd
  exact read_eq_ok_iff.mpr ⟨Writes.ne_garbage hd, signText_shallow, hd⟩

def signTerminals : List (String × GrammarText.Token) := [("+", .reference .symbol)]

def signGrammar : Grammar Empty GrammarText.Token where
  terminals := #[⟨emptyStringName, none⟩, ⟨"+", some (.reference .symbol)⟩]
  nonTerminals := #[⟨"Sign", [⟨[.terminal ⟨1⟩],
    [.static ⟨"List.of", none, [⟨[.str, .any], .static fun _ => throw (.failed "unused")⟩]⟩
      [.constant (.str "plus"), .result 0]]⟩]⟩]
  start := ⟨0⟩

theorem readGrammar_signText :
    readGrammar sampleTypes signText signTerminals listRegistry = .ok signGrammar :=
  readGrammar_eq_ok_iff.mpr ⟨_, _, _, _, _, read_signText, rfl, rfl, by rfl⟩

/-- A quoted symbol, a dotted name and a string are read back. -/
theorem readGrammar_dump_sign :
    ∃ dump, signGrammar.dump = .ok dump ∧ (∃ d, read sampleTypes dump = .ok d) ∧
      readGrammar sampleTypes dump signTerminals listRegistry = .ok signGrammar := by
  have hnames : ∀ set ∈ signGrammar.nonTerminals,
      DottedName.isIdentifier set.name.toList = true := by
    simp only [signGrammar, List.mem_toArray, List.forall_mem_singleton]
    decide
  have hdoubles : ∀ set ∈ signGrammar.nonTerminals, ∀ rule ∈ set.rules, ∀ e ∈ rule.action,
      e.IsDoubleFree := by
    simp only [signGrammar, List.mem_toArray, List.forall_mem_singleton]
    have hconstant : ∀ x, Literal.str "plus" ≠ .double x := by simp
    apply Expr.Everywhere.static trivial
    rintro e (_ | ⟨_, _ | ⟨_, ⟨⟩⟩⟩)
    · exact .constant hconstant
    · exact .result trivial
  have htext : signGrammar.dump = .ok signText := by cbv
  obtain ⟨dump, p, hdump, hp, hback⟩ :=
    readGrammar_dump listRegistry_isDeclared readGrammar_signText hnames hdoubles
  obtain rfl := Except.ok.inj (hdump.symm.trans htext)
  obtain rfl := Except.ok.inj (hp.symm.trans (parser_eq_ok sampleTypes))
  exact ⟨signText, htext, hback signText_shallow⟩

end Language

end ActionGrammar
