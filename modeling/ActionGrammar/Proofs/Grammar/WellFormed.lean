import ActionGrammar.Proofs.Grammar.LeftRecursion
import ActionGrammar.Proofs.Grammar.Registration

/-! # Well-formed grammars

Whatever is registered with a builder, in whatever order and with whatever
failures in between, a grammar that is built from it is closed, and nothing in
it is empty. So it is checked and written without a fault.
-/

namespace ActionGrammar

variable {π τ : Type}

namespace Grammar

structure IsWellFormed (g : Grammar π τ) : Prop where
  closed : g.IsClosed
  rules : ∀ {nt rs}, g.rules nt = .ok rs → rs ≠ []
  symbols : ∀ {nt k r}, g.rule? nt k = some r → r.symbols ≠ []
  action : ∀ {nt k r}, g.rule? nt k = some r → r.action ≠ []
  emptyString : ∃ t, g.terminal ⟨0⟩ = .ok t
  token : ∀ {id t}, g.terminal id = .ok t → (t.token = none ↔ id = ⟨0⟩)

variable {g : Grammar π τ} {nt : NonTerminal} {k : Nat} {r : Rule π}

namespace IsClosed

theorem production_isOk (hg : g.IsClosed) (h : g.rule? nt k = some r) :
    ∃ text, g.production nt r = .ok text :=
  Grammar.production_isOk (declares_of_rule? h) (hg.symbols h)

theorem rulesText_isOk (hg : g.IsClosed) (hd : g.Declares (.nonTerminal nt)) :
    ∃ text, g.rulesText nt = .ok text := by
  have hrule : ∀ r ∈ g.nonTerminals[nt.index].rules, ∃ text, g.ruleText nt r = .ok text := by
    intro r hr
    obtain ⟨k, hk⟩ := List.mem_iff_getElem?.mp hr
    obtain ⟨text, ht⟩ := hg.production_isOk ((rule?_eq_getElem? (rules_eq_ok hd) k).trans hk)
    exact ⟨_, by rw [ruleText, ht]; rfl⟩
  obtain ⟨texts, htexts⟩ := mapM_isOk hrule
  exact ⟨_, by rw [rulesText, rules_eq_ok hd]; simp only [bind, Except.bind, htexts]; rfl⟩

theorem dump_isOk (hg : g.IsClosed) : ∃ text, g.dump = .ok text := by
  have hall : ∀ nt ∈ g.start :: g.allNonTerminals.filter (· != g.start),
      ∃ text, g.rulesText nt = .ok text := by
    refine List.forall_mem_cons.mpr ⟨hg.rulesText_isOk hg.start, fun nt hnt => ?_⟩
    exact hg.rulesText_isOk (LeftRecursion.mem_allNonTerminals_iff.mp (List.mem_of_mem_filter hnt))
  obtain ⟨texts, htexts⟩ := mapM_isOk hall
  exact ⟨_, by rw [dump]; simp only [htexts]; rfl⟩

end IsClosed

end Grammar

namespace LeftRecursion

theorem check_ne_fault {g : Grammar π τ} (hg : g.IsClosed) (h : HandleFault) :
    check g ≠ .error (.fault h) := by
  intro hcheck
  rcases check_outcome hg with ⟨hok, -⟩ | ⟨e, he, nts, names, -, -, rfl⟩
  · exact nomatch hok.symm.trans hcheck
  · exact nomatch he.symm.trans hcheck

/-- A visit that looks in a table with one entry for every nonterminal of the grammar. What happens
outside of the table is left open. -/
def visitTable (g : Grammar π τ) (outside : Walk Bool) : (room : Nat) →
    (path : List NonTerminal) → NonTerminal → Walk Bool
  | room, path, nt => do
    if g.nonTerminals.size ≤ nt.index then outside
    else
      match (← get).lookup nt with
      | some known => return known
      | none =>
        if path.contains nt then failWithCycle g path nt
        else
          let rules ← lift (g.rules nt)
          match room with
          | 0 => failWithCycle g path nt
          | room + 1 =>
            let nullable ← walkRules (visitTable g outside room (nt :: path)) rules
            modify ((nt, nullable) :: ·)
            return nullable

def walkAllTable (g : Grammar π τ) (outside : Walk Bool) : List NonTerminal → Walk Unit
  | [] => pure ()
  | nt :: nts => do
    let _ ← visitTable g outside g.nonTerminals.size [] nt
    walkAllTable g outside nts

def checkTable (g : Grammar π τ) (outside : Walk Bool) : Except GrammarError Unit :=
  ((walkAllTable g outside (g.start :: g.allNonTerminals)).runFrom []).1

variable {g : Grammar π τ} {nt : NonTerminal} {visit visit' : NonTerminal → Walk Bool}
  {outside : Walk Bool}

theorem walkSymbols_congr {ss : List Symbol}
    (h : ∀ nt, .nonTerminal nt ∈ ss → visit nt = visit' nt) :
    walkSymbols visit ss = walkSymbols visit' ss := by
  induction ss with
  | nil => rfl
  | cons s ss ih =>
    have hrest := ih fun nt hnt => h nt (List.mem_cons_of_mem _ hnt)
    cases s with
    | terminal id =>
      rw [walkSymbols, walkSymbols, hrest]
    | nonTerminal nt =>
      rw [walkSymbols, walkSymbols, hrest]
      simp only [h nt List.mem_cons_self]

theorem walkRules_congr {rs : List (Rule π)}
    (h : ∀ r ∈ rs, ∀ nt, .nonTerminal nt ∈ r.symbols → visit nt = visit' nt) :
    walkRules visit rs = walkRules visit' rs := by
  induction rs with
  | nil => rfl
  | cons r rs ih =>
    obtain ⟨hr, hrs⟩ := List.forall_mem_cons.mp h
    rw [walkRules, walkRules, walkSymbols_congr hr, ih hrs]

theorem visitTable_eq (hg : g.IsClosed) (room : Nat) (path : List NonTerminal)
    (hd : g.Declares (.nonTerminal nt)) :
    visitTable g outside room path nt = LeftRecursion.visit g room path nt := by
  induction room generalizing path nt with
  | zero =>
    unfold visitTable LeftRecursion.visit
    apply (if_neg (Nat.not_le_of_lt hd)).trans
    refine bind_congr fun known => ?_
    cases known.lookup nt <;> rfl
  | succ room ih =>
    have hrules (r : Rule π) (hr : r ∈ g.nonTerminals[nt.index].rules) (nt' : NonTerminal)
        (hnt' : .nonTerminal nt' ∈ r.symbols) :
        visitTable g outside room (nt :: path) nt' =
          LeftRecursion.visit g room (nt :: path) nt' := by
      obtain ⟨k, hk⟩ := List.mem_iff_getElem?.mp hr
      have hrule := (Grammar.rule?_eq_getElem? (Grammar.rules_eq_ok hd) k).trans hk
      exact ih (nt :: path) (hg.symbols hrule _ hnt')
    unfold visitTable LeftRecursion.visit
    rw [if_neg (Nat.not_le_of_lt hd), Grammar.rules_eq_ok hd]
    refine bind_congr fun known => ?_
    cases known.lookup nt with
    | some nullable => rfl
    | none =>
      have hlift (rs : List (Rule π)) (f : List (Rule π) → Walk Bool) :
          lift (.ok rs) >>= f = f rs := rfl
      simp only [hlift, walkRules_congr hrules]

theorem walkAllTable_eq (hg : g.IsClosed) {nts : List NonTerminal}
    (hnts : ∀ nt ∈ nts, g.Declares (.nonTerminal nt)) :
    walkAllTable g outside nts = walkAll g nts := by
  induction nts with
  | nil => rfl
  | cons nt nts ih =>
    obtain ⟨hd, hnts⟩ := List.forall_mem_cons.mp hnts
    rw [walkAllTable, walkAll, visitTable_eq hg _ _ hd, ih hnts]

/-- The walk never gets outside of the table. -/
theorem checkTable_eq (hg : g.IsClosed) (outside : Walk Bool) :
    checkTable g outside = check g := by
  have hnts : ∀ nt ∈ g.start :: g.allNonTerminals, g.Declares (.nonTerminal nt) :=
    List.forall_mem_cons.mpr ⟨hg.start, fun _ => mem_allNonTerminals_iff.mp⟩
  rw [checkTable, check, walkAllTable_eq hg hnts]

end LeftRecursion

theorem Template.ne_nil_of_resolveAll {r : Registry π} {ts : List Template}
    {es : List (Resolved π)} (h : Template.resolveAll r ts = .ok es) (hts : ts ≠ []) : es ≠ [] := by
  cases ts with
  | nil => exact absurd rfl hts
  | cons t ts =>
    simp only [Template.resolveAll, bind_eq_ok_iff] at h
    obtain ⟨e, -, es', -, h⟩ := h
    cases h
    exact List.cons_ne_nil e es'

namespace Builder

open Grammar

variable {b : Builder τ} {r : Registry π} {g : Grammar π τ} {nt : NonTerminal} {k : Nat}

theorem rules_ne_nil_of_build (hb : b.build r = .ok g) {rs : List (Rule π)}
    (h : g.rules nt = .ok rs) : rs ≠ [] := by
  obtain ⟨first, rest, start, sets, -, -, hsets, rfl⟩ := build_eq_ok_iff.mp hb
  obtain ⟨set, hset, hrs⟩ := bind_eq_ok_iff.mp h
  cases hrs
  have hmem : set ∈ sets := by
    unfold ruleSet at hset
    split at hset
    · rename_i set' hset'
      cases hset
      simpa using Array.mem_of_getElem? hset'
    · exact nomatch hset
  obtain ⟨⟨name, staged⟩, -, he⟩ := exists_of_forall₂ hsets hmem
  obtain ⟨hne, -, hrules⟩ := finishRules_eq_ok_iff.mp he
  rintro hnil
  rw [hnil] at hrules
  exact hne (List.forall₂_nil_right_iff.mp hrules)

theorem exists_staged_of_build (hb : b.build r = .ok g) {rule : Rule π}
    (h : g.rule? nt k = some rule) :
    ∃ d ∈ GrammarDecl.ungrouped b.nonTerminals,
      b.finishRule r d.nonTerminal ⟨d.symbols, d.action⟩ = .ok rule := by
  obtain ⟨first, rest, start, sets, -, -, hsets, rfl⟩ := build_eq_ok_iff.mp hb
  obtain ⟨set, hset, hrule⟩ := rule?_eq_some_iff.mp h
  obtain ⟨⟨name, staged⟩, hmem, he⟩ :=
    exists_of_forall₂ hsets (by simpa using Array.mem_of_getElem? hset)
  obtain ⟨-, -, hrules⟩ := finishRules_eq_ok_iff.mp he
  obtain ⟨rule', hmem', hf⟩ := exists_of_forall₂ hrules (List.mem_of_getElem? hrule)
  exact ⟨⟨name, rule'.symbols, rule'.action⟩,
    List.mem_flatMap.mpr ⟨_, hmem, List.mem_map.mpr ⟨rule', hmem', rfl⟩⟩, hf⟩

theorem IsSound.isWellFormed (h : b.IsSound) (hb : b.build r = .ok g) : g.IsWellFormed := by
  obtain ⟨first, tail, start, sets, -, -, -, hg⟩ := build_eq_ok_iff.mp hb
  obtain ⟨rest, hrest, htoken⟩ := h.terminals
  have hterminals : g.terminals.toList = ⟨emptyStringName, none⟩ ::
      rest.map fun entry => ⟨entry.1, entry.2⟩ := by
    rw [hg, hrest]
    rfl
  have hterminal (id : Terminal.Id) (t : Terminal τ) :
      g.terminal id = .ok t ↔ g.terminals.toList[id.index]? = some t := by
    unfold terminal
    rw [Array.getElem?_toList]
    cases g.terminals[id.index]? <;> simp
  constructor
  · exact isClosed_of_build hb
  · exact rules_ne_nil_of_build hb
  · intro nt k rule hr
    obtain ⟨d, hd, hf⟩ := exists_staged_of_build hb hr
    have hsymbols := (finishRule_eq_ok_iff.mp hf).1
    intro hnil
    rw [hnil] at hsymbols
    exact (h.rules d hd).1 (List.forall₂_nil_right_iff.mp hsymbols)
  · intro nt k rule hr
    obtain ⟨d, hd, hf⟩ := exists_staged_of_build hb hr
    exact Template.ne_nil_of_resolveAll (finishRule_eq_ok_iff.mp hf).2 (h.rules d hd).2
  · exact ⟨_, (hterminal _ _).mpr (by rw [hterminals]; rfl)⟩
  · rintro ⟨i⟩ t ht
    rw [hterminal, hterminals] at ht
    cases i with
    | zero =>
      cases ht
      simp
    | succ i =>
      obtain ⟨entry, hentry, rfl⟩ := List.mem_map.mp (List.mem_of_getElem? ht)
      simp [htoken entry hentry]

end Builder

end ActionGrammar
