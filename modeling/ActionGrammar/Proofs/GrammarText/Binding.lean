import ActionGrammar.Proofs.GrammarText.RoundTrip

/-! # What a text is bound to

Nothing is lost between a text and the grammar that is read from it: the
nonterminals are the left-hand sides, each with all of its rules in the order of
the text, and the symbols and actions are those that the text names.
-/

namespace ActionGrammar

open GrammarText GrammarDecl

variable {π τ : Type}

namespace Builder

variable {b : Builder τ} {r : Registry π} {g : Grammar π τ}

theorem isBoundTo_of_build (hb : b.build r = .ok g) {rs : List RuleDecl}
    (hrs : b.nonTerminals = grouped rs) {set : RuleSet π} (hset : set ∈ g.nonTerminals) :
    List.Forall₂ (RuleDecl.IsBoundTo g r) (rs.filter (·.nonTerminal == set.name)) set.rules := by
  obtain ⟨_, _, _, sets, -, -, hsets, hg⟩ := build_eq_ok_iff.mp hb
  have hmem : set ∈ sets := by simpa [hg] using hset
  obtain ⟨entry, hentry, hf⟩ := exists_of_forall₂ hsets hmem
  rw [hrs, grouped_eq_map] at hentry
  obtain ⟨name, -, rfl⟩ := List.mem_map.mp hentry
  obtain ⟨-, rfl, hrules⟩ := finishRules_eq_ok_iff.mp hf
  rw [stagedFor, List.forall₂_map_left_iff] at hrules
  refine hrules.imp fun decl rule h => ?_
  obtain ⟨hsymbols, haction⟩ := isBoundTo_of_finishRule hb h
  exact ⟨hsymbols, haction⟩

end Builder

namespace GrammarDecl

variable {b b' : Builder τ} {first : RuleDecl} {rest : List RuleDecl}

theorem setStart_of_stageRules (hb : b.nonTerminals = []) {u : Unit}
    (h : (stageRules (first :: rest)).runFrom b = (.ok u, b')) :
    (Builder.setStart first.nonTerminal).runFrom b' =
      (.ok (), { b' with start := some first.nonTerminal }) := by
  have hreq := stageRules_requires h
  rw [stageRules_eq_ok hb hreq] at h
  cases h
  exact Builder.setStart_eq_ok (hreq first List.mem_cons_self).2.2

theorem stage_error (hb : b.nonTerminals = []) {e : GrammarError}
    (h : (stage ⟨first :: rest, some first.nonTerminal⟩).runFrom b = (.error e, b')) :
    ∃ name, e = .emptyRule name ∨ e = .emptyAction name ∨ e = .nameConflict name := by
  rw [stage, Attempt.runFrom_bind] at h
  rcases hrules : (stageRules (first :: rest)).runFrom b with ⟨e' | u, b₁⟩
  · rw [hrules] at h
    cases h
    exact stageRules_error hrules
  · have hstart := setStart_of_stageRules hb hrules
    simp only [hrules, hstart] at h
    cases h

theorem build_error_of_stage (hb : b.nonTerminals = []) {u : Unit} {r : Registry π}
    {e : GrammarError}
    (h : (stage ⟨first :: rest, some first.nonTerminal⟩).runFrom b = (.ok u, b'))
    (hbuild : b'.build r = .error e) :
    ∃ name, (∃ n, e = .undefinedSymbol name n) ∨ ∃ c, e = .resolve name c := by
  have hb' := eq_of_stage hb rfl h
  obtain ⟨rules, groups, hgroups⟩ := grouped_cons first rest
  have hcons : b'.nonTerminals = (first.nonTerminal, rules) :: groups := by rw [hb', ← hgroups]
  have hindex : b'.nonTerminalIndex? (b'.start.getD first.nonTerminal) = some 0 := by
    rw [Builder.nonTerminalIndex?, hcons, hb', Option.getD_some, List.findIdx?_cons,
      if_pos (beq_self_eq_true _)]
  refine Builder.build_error hcons hindex ?_ hbuild
  rw [hb']
  exact (isGrouped_grouped _).rules

end GrammarDecl

namespace Language

variable [Token τ]

theorem readGrammar_error {types : PartTypes} {text : String} {terminals : List (String × τ)}
    {r : Registry π} {first : RuleDecl} {rest : List RuleDecl} {u : Unit} {b : Builder τ}
    {e : Error} (hd : read types text = .ok ⟨first :: rest, some first.nonTerminal⟩)
    (hb : (stageTerminals terminals).runFrom .empty = (.ok u, b))
    (h : readGrammar types text terminals r = .error e) :
    ∃ e', e = .grammar e' ∧ ∃ name, (e' = .emptyRule name ∨ e' = .emptyAction name ∨
      e' = .nameConflict name) ∨ (∃ n, e' = .undefinedSymbol name n) ∨
        ∃ c, e' = .resolve name c := by
  have hempty : b.nonTerminals = [] := nonTerminals_of_stageTerminals hb
  simp only [readGrammar, hd, bind_eq_error_iff, mapError_eq_error_iff] at h
  rcases h with h | ⟨d, hok, e', h, rfl⟩
  · cases h
  · cases hok
    refine ⟨e', rfl, ?_⟩
    rw [Staging.build, Attempt.runFrom_bind, hb] at h
    dsimp only at h
    split at h
    · rename_i v b' hstage
      obtain ⟨name, hname⟩ := build_error_of_stage hempty hstage h
      exact ⟨name, .inr hname⟩
    · rename_i e₁ b' hstage
      cases h
      obtain ⟨name, hname⟩ := stage_error hempty hstage
      exact ⟨name, .inl hname⟩

/-- The grammar of a text has what the text declares. It starts with the left-hand side of the
first rule, the left-hand sides are its nonterminals, in the order in which they first occur, and
each has the rules of the text, in their order. Given the terminals, no text that is read lacks
rules or a start. -/
theorem readGrammar_keeps_rules {types : PartTypes} {text : String}
    {terminals : List (String × τ)} {d : GrammarDecl} {u : Unit} {b : Builder τ}
    (hd : read types text = .ok d)
    (hb : (stageTerminals terminals).runFrom .empty = (.ok u, b)) (r : Registry π) :
    ∃ first rest, d = ⟨first :: rest, some first.nonTerminal⟩ ∧ Declares (lex text) d ∧
      (∀ v b', (stageRules d.rules).runFrom b = (.ok v, b') →
        ∃ w b'', (Builder.setStart first.nonTerminal).runFrom b' = (.ok w, b'')) ∧
      (∀ e, readGrammar types text terminals r = .error e → e ≠ .grammar .emptyGrammar ∧
        (∀ n, e ≠ .grammar (.undefinedStart n)) ∧ ∀ n, e ≠ .grammar (.noRules n)) ∧
      ∀ g, readGrammar types text terminals r = .ok g →
        g.nonTerminalName g.start = .ok first.nonTerminal ∧
        g.nonTerminals.toList.map RuleSet.name =
          (d.rules.map RuleDecl.nonTerminal).eraseDups ∧
        ∀ set ∈ g.nonTerminals, List.Forall₂ (RuleDecl.IsBoundTo g r)
          (d.rules.filter (·.nonTerminal == set.name)) set.rules := by
  have hempty : b.nonTerminals = [] := nonTerminals_of_stageTerminals hb
  have hdeclares := (read_eq_ok_iff.mp hd).2.2
  obtain ⟨first, rest, rfl⟩ := start_of_declares hdeclares
  refine ⟨first, rest, rfl, hdeclares, fun v b' h => ⟨_, _, setStart_of_stageRules hempty h⟩,
    fun e he => ?_, fun g hg => ?_⟩
  · obtain ⟨e', rfl, name, (rfl | rfl | rfl) | ⟨n, rfl⟩ | ⟨c, rfl⟩⟩ := readGrammar_error hd hb he <;>
      simp
  · obtain ⟨d', u', v, b₁, b', hd', hb₁, hstage, hbuild⟩ := readGrammar_eq_ok_iff.mp hg
    obtain rfl := Except.ok.inj (hd.symm.trans hd')
    obtain ⟨-, rfl⟩ := Prod.mk.inj (hb.symm.trans hb₁)
    have hb' := eq_of_stage hempty rfl hstage
    have hgrouped : b'.nonTerminals = grouped (first :: rest) := by rw [hb']
    obtain ⟨rules, groups, hgroups⟩ := grouped_cons first rest
    have hcons : b'.nonTerminals = (first.nonTerminal, rules) :: groups := by
      rw [hgrouped, hgroups]
    have hstart : g.start = ⟨0⟩ := Builder.start_of_build hbuild hcons (by rw [hb']; rfl)
    have hfirst : b'.nonTerminals[0]? = some (first.nonTerminal, rules) := by rw [hcons]; rfl
    refine ⟨?_, ?_, fun set hset => Builder.isBoundTo_of_build hbuild hgrouped hset⟩
    · rw [hstart]
      exact Builder.nonTerminalName_of_build hbuild hfirst
    · rw [Builder.names_of_build hbuild, hgrouped, grouped_eq_map, List.map_map]
      exact List.map_id _

/-! ### Rules in turn -/

def turnRules : List RuleDecl :=
  [⟨"A", ["b"], [.result 0]⟩, ⟨"B", ["b"], [.result 0]⟩, ⟨"A", ["B", "b"], [.result 1]⟩]

theorem turnRules_isPrintable : ∀ rule ∈ turnRules, rule.IsPrintable := by
  have hname : ∀ n ∈ ["b", "B"], IsSymbolName n := by
    simp only [List.forall_mem_cons, List.not_mem_nil, false_implies, implies_true, and_true]
    exact ⟨⟨.inl (by decide), by simp⟩, ⟨.inl (by decide), by simp⟩⟩
  have hresult : ∀ t ∈ ([.result 0, .result 1] : List Template), t.IsPrintable := by
    simp only [List.forall_mem_cons, List.not_mem_nil, false_implies, implies_true, and_true]
    exact ⟨.result ⟨0, rfl⟩, .result ⟨1, rfl⟩⟩
  have hrule {n : String} {ns : List String} {t : Template}
      (hn : DottedName.isIdentifier n.toList = true ∧ n ∉ ["new", "static"])
      (hns : ns ⊆ ["b", "B"]) (ht : t ∈ [.result 0, .result 1]) :
      RuleDecl.IsPrintable ⟨n, ns, [t]⟩ :=
    ⟨hn, fun n h => hname n (hns h), List.forall_mem_singleton.mpr (hresult t ht)⟩
  simp only [turnRules, List.forall_mem_cons, List.not_mem_nil, false_implies, implies_true,
    and_true]
  exact ⟨hrule (by decide) (by simp) (by simp), hrule (by decide) (by simp) (by simp),
    hrule (by decide) (by simp) (by simp)⟩

def turnText : String :=
  "A : b \x7b $0; \x7d\nB : b \x7b $0; \x7d\nA : B b \x7b $1; \x7d\n"

theorem read_turnText : read sampleTypes turnText = .ok ⟨turnRules, some "A"⟩ := by
  have htext : String.join (turnRules.map RuleDecl.text) = turnText := by decide +kernel
  have hd : Declares (lex (String.join (turnRules.map RuleDecl.text))) ⟨turnRules, some "A"⟩ :=
    declares_text turnRules_isPrintable
  rw [htext] at hd
  have hshallow : ¬ NestsTooDeep (reader sampleTypes : Parser (Payload Empty) GrammarText.Token)
      (lex turnText) := not_nestsTooDeep (by decide +kernel)
  exact read_eq_ok_iff.mpr ⟨Writes.ne_garbage hd, hshallow, hd⟩

def turnTerminals : List (String × GrammarText.Token) := [("b", .reference .symbol)]

def turnBuilder : Builder GrammarText.Token :=
  ⟨[(emptyStringName, none), ("b", some (.reference .symbol))], [], none⟩

def turnGrammar : Grammar Empty GrammarText.Token where
  terminals := #[⟨emptyStringName, none⟩, ⟨"b", some (.reference .symbol)⟩]
  nonTerminals := #[
    ⟨"A", [⟨[.terminal ⟨1⟩], [.result 0]⟩, ⟨[.nonTerminal ⟨1⟩, .terminal ⟨1⟩], [.result 1]⟩]⟩,
    ⟨"B", [⟨[.terminal ⟨1⟩], [.result 0]⟩]⟩]
  start := ⟨0⟩

theorem readGrammar_turnText :
    readGrammar sampleTypes turnText turnTerminals listRegistry = .ok turnGrammar :=
  readGrammar_eq_ok_iff.mpr ⟨_, _, _, _, _, read_turnText, rfl, rfl, by rfl⟩

/-- The third rule of the text is the second one of its nonterminal. -/
theorem readGrammar_keeps_rules_in_turn :
    read sampleTypes turnText = .ok ⟨turnRules, some "A"⟩ ∧
    (stageTerminals turnTerminals).runFrom .empty = (.ok (), turnBuilder) ∧
    ∀ set ∈ turnGrammar.nonTerminals, List.Forall₂ (RuleDecl.IsBoundTo turnGrammar listRegistry)
      (turnRules.filter (·.nonTerminal == set.name)) set.rules := by
  refine ⟨read_turnText, rfl, ?_⟩
  have hb : (stageTerminals turnTerminals).runFrom .empty = (.ok (), turnBuilder) := rfl
  obtain ⟨_, _, -, -, -, -, h⟩ := readGrammar_keeps_rules read_turnText hb listRegistry
  exact (h turnGrammar readGrammar_turnText).2.2

end Language

end ActionGrammar
