import ActionGrammar.GrammarText.Grammar
import ActionGrammar.Proofs.Grammar.Built
import ActionGrammar.Proofs.Grammar.Staging
import ActionGrammar.Proofs.GrammarText.Library
import ActionGrammar.Proofs.GrammarText.Notation
import ActionGrammar.Proofs.Parse.Predictive

/-! # The built grammar of grammar text

Whatever the types of parts are called, the grammar of grammar text can be
built, and it has a nonterminal for every phrase. It is LL(1), and no token
matches two of its terminals.
-/

namespace ActionGrammar.GrammarText

def Kind.terminal : Kind → Terminal.Id
  | .colon => ⟨1⟩
  | .semicolon => ⟨2⟩
  | .comma => ⟨3⟩
  | .leftParen => ⟨4⟩
  | .rightParen => ⟨5⟩
  | .leftBrace => ⟨6⟩
  | .rightBrace => ⟨7⟩
  | .dot => ⟨8⟩
  | .new => ⟨9⟩
  | .static => ⟨10⟩
  | .symbol => ⟨11⟩
  | .str => ⟨12⟩
  | .int => ⟨13⟩
  | .double => ⟨14⟩
  | .result => ⟨15⟩
  | .blank => ⟨16⟩
  | .garbage => ⟨17⟩

def Phrase.nonTerminal : Phrase → NonTerminal
  | .grammar => ⟨0⟩
  | .rules => ⟨1⟩
  | .rule => ⟨2⟩
  | .symbols => ⟨3⟩
  | .exprs => ⟨4⟩
  | .expr => ⟨5⟩
  | .name => ⟨6⟩
  | .nameTail => ⟨7⟩
  | .args => ⟨8⟩
  | .argsTail => ⟨9⟩
  | .literal => ⟨10⟩

def Kind.asSymbol (k : Kind) : Symbol := .terminal k.terminal

def Phrase.asSymbol (p : Phrase) : Symbol := .nonTerminal p.nonTerminal

/-! ### Staging -/

def terminalEntry (t : String × Kind) : String × Option Token := (t.1, some (.reference t.2))

theorem stageTerminals_eq_ok {ts : List (String × Kind)} (done : List (String × Kind))
    (hne : ∀ t ∈ ts, t.1 ≠ emptyStringName)
    (h : (done ++ ts).Pairwise fun t t' => t.1 ≠ t'.1 ∧ t.2 ≠ t'.2) :
    (stageTerminals ts).runFrom ⟨(emptyStringName, none) :: done.map terminalEntry, [], none⟩ =
      (.ok (), ⟨(emptyStringName, none) :: (done ++ ts).map terminalEntry, [], none⟩) := by
  induction ts generalizing done with
  | nil => simp [stageTerminals]
  | cons t ts ih =>
    have hdone : ∀ t' ∈ done, t'.1 ≠ t.1 ∧ t'.2 ≠ t.2 := fun t' ht' =>
      (List.pairwise_append.mp h).2.2 t' ht' t List.mem_cons_self
    have hterm : Builder.hasTerminal ⟨(emptyStringName, none) :: done.map terminalEntry, [], none⟩
        t.1 = false := by
      simp only [Builder.hasTerminal, List.any_eq_false, List.forall_mem_cons, List.forall_mem_map]
      exact ⟨by simpa using Ne.symm (hne t List.mem_cons_self),
        fun t' ht' => by simpa [terminalEntry] using (hdone t' ht').1⟩
    have hclash : Builder.clash? ⟨(emptyStringName, none) :: done.map terminalEntry, [], none⟩
        (Token.reference t.2) = none := by
      simp only [Builder.clash?, Option.map_eq_none_iff, List.find?_eq_none, List.forall_mem_cons,
        List.forall_mem_map]
      refine ⟨by simp, fun t' ht' => ?_⟩
      simpa [terminalEntry, ActionGrammar.Token.compatible, Token.reference]
        using ⟨(hdone t' ht').2, Ne.symm (hdone t' ht').2⟩
    rw [stageTerminals, Attempt.runFrom_bind, Builder.registerTerminal_eq_ok hterm rfl hclash]
    have := ih (done ++ [t]) (fun t h => hne t (List.mem_cons_of_mem _ h)) (by simpa using h)
    simpa [terminalEntry] using this

/-- The rules of every nonterminal, as they are numbered. -/
def stagedRules : List (String × List StagedRule) :=
  [("Grammar", rules.take 1), ("Grammar1", (rules.drop 1).take 2), ("Rule", (rules.drop 3).take 1),
    ("Symbols", (rules.drop 4).take 2), ("Exprs", (rules.drop 6).take 2),
    ("Expr", (rules.drop 8).take 4), ("Name", (rules.drop 12).take 1),
    ("NameTail", (rules.drop 13).take 2), ("Args", (rules.drop 15).take 2),
    ("ArgsTail", (rules.drop 17).take 2), ("Literal", (rules.drop 19).take 4)].map
  fun (name, rs) => (name, rs.map fun r => ⟨r.symbols, r.action⟩)

theorem grouped_rules : GrammarDecl.grouped rules = stagedRules := by cbv

def builder : Builder Token :=
  ⟨(emptyStringName, none) :: terminals.map terminalEntry, stagedRules, none⟩

theorem stage_eq_ok : stage.runFrom .empty = (.ok (), builder) := by
  have ht : (stageTerminals terminals).runFrom .empty =
      (.ok (), ⟨(emptyStringName, none) :: terminals.map terminalEntry, [], none⟩) :=
    stageTerminals_eq_ok [] (by decide) (by decide)
  rw [stage, Attempt.runFrom_bind, ht]
  exact (GrammarDecl.stageRules_eq_ok rfl (by decide)).trans (by rw [grouped_rules]; rfl)

/-! ### Building -/

section

open ActionGrammar.Part

variable {ν : Type} (types : PartTypes)

def rulesOf : Phrase → List (Rule (Payload ν))
  | .grammar =>
    [⟨[Phrase.rule.asSymbol, Phrase.rules.asSymbol],
      [.invoke (Callee.addRule types) (.result 1) [.result 0],
        .invoke (Callee.setStart types) (.result 1) [.result 0]]⟩]
  | .rules =>
    [⟨[Phrase.rule.asSymbol, Phrase.rules.asSymbol],
      [.invoke (Callee.addRule types) (.result 1) [.result 0]]⟩,
      ⟨[.terminal ⟨0⟩], [.construct (Callee.newGrammar types) []]⟩]
  | .rule =>
    [⟨[Kind.symbol.asSymbol, Kind.colon.asSymbol, Phrase.symbols.asSymbol,
        Kind.leftBrace.asSymbol, Phrase.exprs.asSymbol, Kind.rightBrace.asSymbol],
      [.construct (Callee.newRule types) [.result 0, .result 2, .result 4]]⟩]
  | .symbols =>
    [⟨[Kind.symbol.asSymbol, Phrase.symbols.asSymbol],
      [.invoke (Callee.prependName types) (.result 1) [.result 0]]⟩,
      ⟨[.terminal ⟨0⟩], [.construct (Callee.newNames types) []]⟩]
  | .exprs =>
    [⟨[Phrase.expr.asSymbol, Kind.semicolon.asSymbol, Phrase.exprs.asSymbol],
      [.invoke (Callee.prependExpr types) (.result 2) [.result 0]]⟩,
      ⟨[.terminal ⟨0⟩], [.construct (Callee.newExprs types) []]⟩]
  | .expr =>
    [⟨[Kind.new.asSymbol, Phrase.name.asSymbol, Kind.leftParen.asSymbol, Phrase.args.asSymbol,
        Kind.rightParen.asSymbol], [.static (Callee.construct types) [.result 1, .result 3]]⟩,
      ⟨[Kind.static.asSymbol, Phrase.name.asSymbol, Kind.leftParen.asSymbol,
        Phrase.args.asSymbol, Kind.rightParen.asSymbol],
        [.static (Callee.static types) [.result 1, .result 3]]⟩,
      ⟨[Phrase.name.asSymbol, Kind.leftParen.asSymbol, Phrase.expr.asSymbol,
        Phrase.argsTail.asSymbol, Kind.rightParen.asSymbol],
        [.static (Callee.invoke types) [.result 0, .result 2, .result 3]]⟩,
      ⟨[Phrase.literal.asSymbol], [.result 0]⟩]
  | .name =>
    [⟨[Kind.symbol.asSymbol, Phrase.nameTail.asSymbol],
      [.invoke (Callee.prependName types) (.result 1) [.result 0]]⟩]
  | .nameTail =>
    [⟨[Kind.dot.asSymbol, Kind.symbol.asSymbol, Phrase.nameTail.asSymbol],
      [.invoke (Callee.prependName types) (.result 2) [.result 1]]⟩,
      ⟨[.terminal ⟨0⟩], [.construct (Callee.newNames types) []]⟩]
  | .args =>
    [⟨[Phrase.expr.asSymbol, Phrase.argsTail.asSymbol],
      [.invoke (Callee.prependExpr types) (.result 1) [.result 0]]⟩,
      ⟨[.terminal ⟨0⟩], [.construct (Callee.newExprs types) []]⟩]
  | .argsTail =>
    [⟨[Kind.comma.asSymbol, Phrase.expr.asSymbol, Phrase.argsTail.asSymbol],
      [.invoke (Callee.prependExpr types) (.result 2) [.result 1]]⟩,
      ⟨[.terminal ⟨0⟩], [.construct (Callee.newExprs types) []]⟩]
  | .literal =>
    [⟨[Kind.result.asSymbol], [.static (Callee.result types) [.result 0]]⟩,
      ⟨[Kind.str.asSymbol], [.static (Callee.constant types) [.result 0]]⟩,
      ⟨[Kind.int.asSymbol], [.static (Callee.constant types) [.result 0]]⟩,
      ⟨[Kind.double.asSymbol], [.static (Callee.constant types) [.result 0]]⟩]

def phrases : List (String × Phrase) :=
  [("Grammar", .grammar), ("Grammar1", .rules), ("Rule", .rule), ("Symbols", .symbols),
    ("Exprs", .exprs), ("Expr", .expr), ("Name", .name), ("NameTail", .nameTail),
    ("Args", .args), ("ArgsTail", .argsTail), ("Literal", .literal)]

def built : Grammar (Payload ν) Token where
  terminals := (builder.terminals.map fun (name, token) => ⟨name, token⟩).toArray
  nonTerminals := (phrases.map fun (name, ph) => ⟨name, rulesOf types ph⟩).toArray
  start := ⟨0⟩

theorem lookupSymbol_kind (nt : String) :
    ∀ x ∈ terminals, builder.lookupSymbol nt x.1 = .ok x.2.asSymbol := by
  have hi : ∀ x ∈ terminals, builder.terminalIndex? x.1 = some x.2.terminal.index := by decide
  intro x hx
  simp only [Builder.lookupSymbol, hi x hx]
  rfl

theorem lookupSymbol_phrase (nt : String) :
    ∀ x ∈ phrases, builder.lookupSymbol nt x.1 = .ok x.2.asSymbol := by
  have hi : ∀ x ∈ phrases, builder.terminalIndex? x.1 = none ∧
      builder.nonTerminalIndex? x.1 = some x.2.nonTerminal.index := by decide
  intro x hx
  simp only [Builder.lookupSymbol, hi x hx]
  rfl

theorem finishRules_eq_ok :
    List.Forall₂ (fun x y => builder.finishRules (loaded types : Registry (Payload ν)) x = .ok y)
      stagedRules (phrases.map fun (name, ph) => ⟨name, rulesOf types ph⟩) := by
  have hk (nt : String) := lookupSymbol_kind nt
  have hp (nt : String) := lookupSymbol_phrase nt
  have he (nt : String) : builder.lookupSymbol nt emptyStringName = .ok (.terminal ⟨0⟩) := rfl
  have hc := @findConstructors_eq_ok ν types
  have hm := @findMethods_eq_ok ν types
  have hs := @findStatics_eq_ok ν types
  simp only [terminals, phrases, List.forall_mem_cons] at hk hp hc hm hs
  simp only [stagedRules, rules, phrases, List.take, List.drop, List.map_cons, List.map_nil,
    List.forall₂_cons, List.forall₂_nil_right_iff]
  refine ⟨?_, ?_, ?_, ?_, ?_, ?_, ?_, ?_, ?_, ?_, ?_, trivial⟩
  all_goals
    simp only [Builder.finishRules, List.mapM_cons, List.mapM_nil, Builder.finishRule, hk, hp,
      he, Template.resolveAll, Template.resolve, hc, hm, hs, bind, Except.bind, pure, Except.pure,
      call, construct, invoke, results, List.map_cons, List.map_nil, List.isEmpty_cons, rulesOf,
      Bool.false_eq_true, if_false]

theorem build_eq_ok : builder.build (loaded types : Registry (Payload ν)) = .ok (built types) :=
  Builder.build_eq_ok_iff.mpr ⟨_, _, _, _, rfl, by decide, finishRules_eq_ok types, rfl⟩

theorem grammar_eq_ok : grammar types = .ok (built types : Grammar (Payload ν) Token) := by
  have hreg : registry types = .ok (loaded types : Registry (Payload ν)) := by
    rw [registry, library_eq_ok]
    rfl
  rw [grammar, hreg]
  simp only [Staging.build, stage_eq_ok, build_eq_ok]

theorem check_built : LeftRecursion.check (built types : Grammar (Payload ν) Token) = .ok () := by
  cbv

def reader : Parser (Payload ν) Token := ⟨built types, .standard, check_built types⟩

theorem parser_eq_ok : parser types = .ok (reader types : Parser (Payload ν) Token) := by
  have hnew : Parser.new (built types : Grammar (Payload ν) Token) = .ok (reader types) := by
    unfold Parser.new
    split
    · rfl
    · rename_i e h
      exact nomatch h.symm.trans (check_built types)
  rw [parser, grammar_eq_ok]
  exact hnew

/-! ### Lookahead -/

theorem rule?_built (ph : Phrase) (k : Nat) :
    (built types : Grammar (Payload ν) Token).rule? ph.nonTerminal k = (rulesOf types ph)[k]? := by
  cases ph <;> rfl

variable {types}

theorem rule?_built_eq_some {nt : NonTerminal} {k : Nat} {r : Rule (Payload ν)}
    (h : (built types).rule? nt k = some r) :
    ∃ ph : Phrase, nt = ph.nonTerminal ∧ (rulesOf types ph)[k]? = some r := by
  have hall : ∀ i ∈ List.range phrases.length, ∃ x ∈ phrases, x.2.nonTerminal = ⟨i⟩ := by decide
  obtain ⟨set, hset, -⟩ := Grammar.rule?_eq_some_iff.mp h
  obtain ⟨hi, -⟩ := Array.getElem?_eq_some_iff.mp hset
  obtain ⟨⟨name, ph⟩, -, hph⟩ := hall nt.index (List.mem_range.mpr (by simpa [built] using hi))
  obtain rfl : ph.nonTerminal = nt := hph
  exact ⟨ph, rfl, (rule?_built types ph k).symm.trans h⟩

theorem terminals_built (i : Nat) :
    (built types : Grammar (Payload ν) Token).terminals[i + 1]? =
      terminals[i]?.map fun (name, k) => ⟨name, some (.reference k)⟩ := by
  simp [built, builder]
  rfl

theorem matches_built_iff {id : Terminal.Id} {x : Token} :
    (built types : Grammar (Payload ν) Token).Matches id x ↔
      x.kind ∈ terminals.map Prod.snd ∧ id = x.kind.terminal := by
  have hid : ∀ i ∈ List.range terminals.length, ∀ t ∈ terminals[i]?, t.2.terminal = ⟨i + 1⟩ := by
    decide
  have hget {i : Nat} {t : String × Kind} (h : terminals[i]? = some t) :
      t ∈ terminals ∧ t.2.terminal = ⟨i + 1⟩ := by
    obtain ⟨hi, -⟩ := List.getElem?_eq_some_iff.mp h
    exact ⟨List.mem_of_getElem? h, hid i (List.mem_range.mpr hi) t h⟩
  constructor
  · rintro ⟨hne, t, ht, hm⟩
    obtain ⟨_ | i⟩ := id
    · exact absurd rfl hne
    · unfold Grammar.terminal at ht
      rw [terminals_built] at ht
      cases hk : terminals[i]? with
      | none =>
        rw [hk] at ht
        exact nomatch ht
      | some entry =>
        obtain ⟨hmem, hterm⟩ := hget hk
        rw [hk] at ht
        obtain rfl := Except.ok.inj ht
        have hkind : entry.2 = x.kind := eq_of_beq hm
        exact ⟨hkind ▸ List.mem_map_of_mem hmem, hkind ▸ hterm.symm⟩
  · rintro ⟨hk, rfl⟩
    obtain ⟨entry, hmem, hkind⟩ := List.mem_map.mp hk
    obtain ⟨i, hi⟩ := List.mem_iff_getElem?.mp hmem
    obtain ⟨-, hterm⟩ := hget hi
    rw [← hkind, hterm]
    refine ⟨by simp, ⟨entry.1, some (.reference entry.2)⟩, ?_, beq_iff_eq.mpr hkind⟩
    unfold Grammar.terminal
    rw [terminals_built, hi]
    rfl

theorem matchedOnce_built (tokens : List Token) :
    (built types : Grammar (Payload ν) Token).MatchedOnce tokens := by
  intro x _ a b ha hb
  rw [(matches_built_iff.mp ha).2, (matches_built_iff.mp hb).2]

def Phrase.first : Phrase → List Kind
  | grammar | rules | rule | symbols | name => [.symbol]
  | exprs | expr | args => [.new, .static, .symbol, .result, .str, .int, .double]
  | nameTail => [.dot]
  | argsTail => [.comma]
  | literal => [.result, .str, .int, .double]

def Phrase.follow : Phrase → List Kind
  | grammar | rules => []
  | rule => [.symbol]
  | symbols => [.leftBrace]
  | exprs => [.rightBrace]
  | expr | literal => [.semicolon, .comma, .rightParen]
  | name | nameTail => [.leftParen]
  | args | argsTail => [.rightParen]

def lookahead : LookaheadTable where
  nullable nt :=
    [Phrase.rules, .symbols, .exprs, .nameTail, .args, .argsTail].any (·.nonTerminal == nt)
  first nt := phrases.flatMap fun (_, ph) =>
    if ph.nonTerminal = nt then ph.first.map Kind.terminal else []
  follow nt := phrases.flatMap fun (_, ph) =>
    if ph.nonTerminal = nt then ph.follow.map Kind.terminal else []

theorem decides_built : lookahead.Decides (built types : Grammar (Payload ν) Token) :=
  of_decide_eq_true (by cbv)

theorem nullableIsEpsilon_built : (built types : Grammar (Payload ν) Token).NullableIsEpsilon :=
  decides_built.nullableIsEpsilon (of_decide_eq_true (by cbv))

end

end ActionGrammar.GrammarText
