import ActionGrammar.Proofs.Grammar.Bound
import ActionGrammar.Proofs.Grammar.History

/-! # Complete registrations

The registrations that are accepted name nonterminals and terminals, list the
rules of each nonterminal, and set the start. They are complete if nothing that
they name is missing. A grammar is built from them exactly in this case, and it
has the nonterminals and their rules in the order of the registrations.
-/

namespace ActionGrammar

variable {π τ : Type}

namespace Registration

def ruleFor? (name : String) : Registration τ → Option StagedRule
  | .rule other symbols action => if other = name then some ⟨symbols, action⟩ else none
  | _ => none

def start? : Registration τ → Option String
  | .start name => some name
  | _ => none

/-- The names of the terminals. The empty string needs no registration. -/
def terminals (xs : List (Registration τ)) : List String :=
  emptyStringName :: xs.filterMap terminal?

def nonTerminals (xs : List (Registration τ)) : List String :=
  (xs.filterMap nonTerminal?).eraseDups

def rulesFor (xs : List (Registration τ)) (name : String) : List StagedRule :=
  xs.filterMap (ruleFor? name)

/-- The start that was set last, else the first nonterminal. -/
def startName? (xs : List (Registration τ)) : Option String :=
  (xs.filterMap start?).getLast?.or (nonTerminals xs).head?

/-- Whatever the registrations name is there. -/
structure IsComplete (xs : List (Registration τ)) (r : Registry π) : Prop where
  nonempty : nonTerminals xs ≠ []
  start : ∀ name ∈ startName? xs, name ∈ nonTerminals xs
  rules : ∀ name ∈ nonTerminals xs, rulesFor xs name ≠ []
  symbols : ∀ name ∈ nonTerminals xs, ∀ rule ∈ rulesFor xs name, ∀ s ∈ rule.symbols,
    s ∈ terminals xs ∨ s ∈ nonTerminals xs
  callees : ∀ name ∈ nonTerminals xs, ∀ rule ∈ rulesFor xs name, ∀ t ∈ rule.action,
    ∃ e, Template.resolve r t = .ok e

variable {xs : List (Registration τ)} {name : String}

theorem rulesFor_eq_nil (h : name ∉ nonTerminals xs) : rulesFor xs name = [] := by
  rw [rulesFor, List.filterMap_eq_nil_iff]
  intro x hx
  cases x with
  | rule other symbols action =>
    refine if_neg ?_
    rintro rfl
    exact h (List.mem_eraseDups.mpr (List.mem_filterMap.mpr ⟨_, hx, rfl⟩))
  | _ => rfl

theorem startName?_of_cons {first : String} {rest : List String}
    (h : nonTerminals xs = first :: rest) :
    startName? xs = some ((xs.filterMap start?).getLast?.getD first) := by
  rw [startName?, h]
  cases (xs.filterMap start?).getLast? <;> rfl

theorem nonTerminals_concat (xs : List (Registration τ)) (x : Registration τ) :
    nonTerminals (xs ++ [x]) =
      match x.nonTerminal? with
      | some name =>
        if name ∈ nonTerminals xs then nonTerminals xs else nonTerminals xs ++ [name]
      | none => nonTerminals xs := by
  rw [nonTerminals, List.filterMap_append]
  cases hx : x.nonTerminal? with
  | none => simp [hx, nonTerminals]
  | some name =>
    simp only [List.filterMap_cons_some hx, List.filterMap_nil, GrammarDecl.eraseDups_concat,
      nonTerminals, List.mem_eraseDups]

theorem rulesFor_concat (xs : List (Registration τ)) (x : Registration τ) :
    rulesFor (xs ++ [x]) name = rulesFor xs name ++ (x.ruleFor? name).toList := by
  rw [rulesFor, List.filterMap_append, rulesFor]
  cases hx : x.ruleFor? name <;> simp [hx]

end Registration

namespace Builder

open Registration

variable {xs : List (Registration τ)} {name : String}

theorem terminals_ofAccepted (xs : List (Registration τ)) :
    (ofAccepted xs).terminals.map Prod.fst = Registration.terminals xs := by
  induction xs using List.reverseRecOn with
  | nil => rfl
  | append_singleton xs x ih =>
    rw [ofAccepted] at ih ⊢
    rw [List.foldl_append, List.foldl_cons, List.foldl_nil, Registration.terminals,
      List.filterMap_append]
    cases x <;> simp [add, terminal?, ih, Registration.terminals]

theorem start_ofAccepted (xs : List (Registration τ)) :
    (ofAccepted xs).start = (xs.filterMap start?).getLast? := by
  induction xs using List.reverseRecOn with
  | nil => rfl
  | append_singleton xs x ih =>
    rw [ofAccepted] at ih ⊢
    rw [List.foldl_append, List.foldl_cons, List.foldl_nil, List.filterMap_append]
    cases x <;> simp [add, start?, ih]

theorem nonTerminals_ofAccepted (xs : List (Registration τ)) :
    (ofAccepted xs).nonTerminals =
      (Registration.nonTerminals xs).map fun n => (n, rulesFor xs n) := by
  induction xs using List.reverseRecOn with
  | nil => rfl
  | append_singleton xs x ih =>
    rw [ofAccepted] at ih ⊢
    rw [List.foldl_append, List.foldl_cons, List.foldl_nil, nonTerminals_concat]
    simp only [rulesFor_concat]
    cases x with
    | terminal | start => simpa [add, nonTerminal?, ruleFor?] using ih
    | nonTerminal name =>
      simp only [add, ih, withNonTerminal, nonTerminal?, ruleFor?, Option.toList_none,
        List.append_nil, List.map_map, Function.comp_def, List.map_id']
      split
      · rfl
      · rename_i h
        simp [rulesFor_eq_nil h]
    | rule name symbols action =>
      have hnodup : (Registration.nonTerminals xs).Nodup := GrammarDecl.nodup_eraseDups _
      simp only [add, ih, withRule_map hnodup rulesFor_eq_nil, nonTerminal?]
      refine List.map_congr_left fun n _ => ?_
      by_cases hn : n = name
      · simp [ruleFor?, hn]
      · simp [ruleFor?, hn, Ne.symm hn]

theorem hasTerminal_ofAccepted_iff :
    (ofAccepted xs).hasTerminal name = true ↔ name ∈ Registration.terminals xs := by
  simp [hasTerminal, ← terminals_ofAccepted]

theorem hasNonTerminal_ofAccepted_iff :
    (ofAccepted xs).hasNonTerminal name = true ↔ name ∈ Registration.nonTerminals xs := by
  simp [hasNonTerminal_iff, nonTerminals_ofAccepted]

variable {r : Registry π} {g : Grammar π τ}

theorem finishes_iff :
    (∀ entry ∈ (ofAccepted xs).nonTerminals, ∃ set, (ofAccepted xs).finishRules r entry = .ok set) ↔
      ∀ name ∈ Registration.nonTerminals xs, rulesFor xs name ≠ [] ∧ ∀ rule ∈ rulesFor xs name,
        (∀ s ∈ rule.symbols, s ∈ Registration.terminals xs ∨ s ∈ Registration.nonTerminals xs) ∧
        ∀ t ∈ rule.action, ∃ e, Template.resolve r t = .ok e := by
  simp only [nonTerminals_ofAccepted, List.forall_mem_map, finishRules_isOk_iff,
    finishRule_isOk_iff, hasTerminal_ofAccepted_iff, hasNonTerminal_ofAccepted_iff]

theorem build_ofAccepted_isOk_iff :
    (∃ g, (ofAccepted xs).build r = .ok g) ↔ IsComplete xs r := by
  rw [build_isOk_iff, finishes_iff, start_ofAccepted, nonTerminals_ofAccepted]
  simp only [hasNonTerminal_ofAccepted_iff]
  constructor
  · rintro ⟨first, rest, hcons, hstart, hall⟩
    obtain ⟨n, ns, hns, rfl, -⟩ := List.map_eq_cons_iff.mp hcons
    refine ⟨by simp [hns], ?_, fun name h => (hall name h).1,
      fun name h rule hr => ((hall name h).2 rule hr).1,
      fun name h rule hr => ((hall name h).2 rule hr).2⟩
    rw [startName?_of_cons hns]
    rintro name ⟨⟩
    exact hstart
  · rintro ⟨hne, hstart, hrules, hsymbols, hcallees⟩
    obtain ⟨n, ns, hns⟩ := List.exists_cons_of_ne_nil hne
    refine ⟨(n, rulesFor xs n), ns.map fun n => (n, rulesFor xs n), by rw [hns, List.map_cons],
      hstart _ (startName?_of_cons hns), fun name h => ⟨hrules name h, fun rule hr => ?_⟩⟩
    exact ⟨hsymbols name h rule hr, hcallees name h rule hr⟩

theorem build_ofAccepted_bound (hb : (ofAccepted xs).build r = .ok g) :
    List.Forall₂ (fun name set => set.name = name ∧
        List.Forall₂ (fun rule built =>
          RuleDecl.IsBoundTo g r ⟨name, rule.symbols, rule.action⟩ built)
          (rulesFor xs name) set.rules)
      (Registration.nonTerminals xs) g.nonTerminals.toList := by
  obtain ⟨first, rest, start, sets, -, -, hsets, hg⟩ := build_eq_ok_iff.mp hb
  rw [nonTerminals_ofAccepted, List.forall₂_map_left_iff] at hsets
  have hsets' : g.nonTerminals.toList = sets := by rw [hg]
  rw [hsets']
  refine hsets.imp fun name set hset => ?_
  obtain ⟨-, hname, hrules⟩ := finishRules_eq_ok_iff.mp hset
  exact ⟨hname, hrules.imp fun rule built hf => isBoundTo_of_finishRule hb hf⟩

theorem build_ofAccepted_start (hb : (ofAccepted xs).build r = .ok g) :
    ∃ name, startName? xs = some name ∧ g.nonTerminalName g.start = .ok name := by
  obtain ⟨first, rest, start, sets, hcons, hstart, -, hg⟩ := build_eq_ok_iff.mp hb
  rw [nonTerminals_ofAccepted] at hcons
  obtain ⟨n, ns, hns, rfl, -⟩ := List.map_eq_cons_iff.mp hcons
  refine ⟨_, startName?_of_cons hns, ?_⟩
  obtain ⟨hlt, hname, -⟩ := List.findIdx?_eq_some_iff_getElem.mp hstart
  have hentry := nonTerminalName_of_build hb (List.getElem?_eq_getElem hlt)
  have hg' : g.start = ⟨start⟩ := by rw [hg]
  rw [hg', hentry, eq_of_beq hname, start_ofAccepted]

variable [Token τ]

/-- Whatever is registered, and whatever is refused, a grammar is built exactly if the registrations
that are accepted are complete. It starts with the start that they set, else with the first
nonterminal, and it has the nonterminals and their rules in order, each one bound to the names that
it was registered with. -/
theorem after_builds_iff (xs : List (Registration τ)) (r : Registry π) :
    ((∃ g, (after xs).build r = .ok g) ↔ IsComplete (empty.accepted xs) r) ∧
    ∀ g, (after xs).build r = .ok g →
      (∃ name, startName? (empty.accepted xs) = some name ∧
        g.nonTerminalName g.start = .ok name) ∧
      List.Forall₂ (fun name set => set.name = name ∧
          List.Forall₂ (fun rule built =>
            RuleDecl.IsBoundTo g r ⟨name, rule.symbols, rule.action⟩ built)
            (rulesFor (empty.accepted xs) name) set.rules)
        (Registration.nonTerminals (empty.accepted xs)) g.nonTerminals.toList := by
  rw [after_eq_ofAccepted]
  refine ⟨build_ofAccepted_isOk_iff, fun g hb => ?_⟩
  exact ⟨build_ofAccepted_start hb, build_ofAccepted_bound hb⟩

/-- A nonterminal that is only registered has no rules, so nothing is built with it. -/
theorem after_builds_iff_int :
    (∃ g : Grammar Unit GrammarText.Token, (after (intRule :: .terminal "int" (.reference .int) ::
        afterInt)).build ⟨[]⟩ = .ok g ∧ g.nonTerminalName g.start = .ok "Start") ∧
    ¬ ∃ g : Grammar Unit GrammarText.Token, (after [intRule, .terminal "int" (.reference .int),
        .nonTerminal "Rest"]).build ⟨[]⟩ = .ok g := by
  constructor
  · obtain ⟨g, hg⟩ : ∃ g : Grammar Unit GrammarText.Token,
        (after (intRule :: .terminal "int" (.reference .int) :: afterInt)).build ⟨[]⟩ = .ok g :=
      ⟨_, rfl⟩
    obtain ⟨name, hname, hstart⟩ := ((after_builds_iff _ _).2 g hg).1
    cases hname
    exact ⟨g, hg, hstart⟩
  · rw [(after_builds_iff _ _).1]
    intro h
    exact h.rules "Rest" (by decide) rfl

end Builder

end ActionGrammar
