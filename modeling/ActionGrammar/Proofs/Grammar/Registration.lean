import ActionGrammar.Proofs.Grammar.Grouping

/-! # Registrations

What is registered with a builder, as data. A registration that is refused
changes nothing, and one that is accepted adds an entry. So whatever the
registrations, no name is ever that of a terminal and of a nonterminal, and no
rule is empty.
-/

namespace ActionGrammar

variable {τ : Type}

inductive Registration (τ : Type) where
  | terminal (name : String) (token : τ)
  | nonTerminal (name : String)
  | rule (nonTerminal : String) (symbols : List String) (action : List Template)
  | start (name : String)

namespace Registration

def terminal? : Registration τ → Option String
  | .terminal name _ => some name
  | _ => none

/-- The nonterminal that is registered, or has to be for its rule. -/
def nonTerminal? : Registration τ → Option String
  | .nonTerminal name | .rule name _ _ => some name
  | _ => none

def isTerminal (x : Registration τ) : Bool := x.terminal?.isSome

def isStart : Registration τ → Bool
  | .start _ => true
  | _ => false

theorem isStart_of_isTerminal {x : Registration τ} (h : x.isTerminal = true) :
    x.isStart = false := by
  cases x with
  | start name => exact nomatch h
  | _ => rfl

variable [Token τ]

def stage : Registration τ → Staging τ Unit
  | .terminal name token => do let _ ← Builder.registerTerminal name token
  | .nonTerminal name => do let _ ← Builder.registerNonTerminal name
  | .rule name symbols action => Builder.registerRule name symbols action
  | .start name => Builder.setStart name

/-- Stops at the first registration that is refused. -/
def stageAll : List (Registration τ) → Staging τ Unit
  | [] => pure ()
  | x :: xs => do
    x.stage
    stageAll xs

end Registration

namespace Builder

variable {b : Builder τ} {name : String}

theorem hasNonTerminal_iff :
    b.hasNonTerminal name = true ↔ name ∈ b.nonTerminals.map Prod.fst := by
  simp [hasNonTerminal]

def withNonTerminal (nonTerminals : List (String × List StagedRule)) (name : String) :
    List (String × List StagedRule) :=
  if name ∈ nonTerminals.map Prod.fst then nonTerminals else nonTerminals ++ [(name, [])]

theorem map_fst_withNonTerminal {nonTerminals : List (String × List StagedRule)} :
    (withNonTerminal nonTerminals name).map Prod.fst =
      if name ∈ nonTerminals.map Prod.fst then nonTerminals.map Prod.fst
      else nonTerminals.map Prod.fst ++ [name] := by
  unfold withNonTerminal
  split <;> simp

theorem registerNonTerminal_eq_ok (ht : b.hasTerminal name = false) :
    ∃ nt, (registerNonTerminal name).runFrom b =
      (.ok nt, { b with nonTerminals := withNonTerminal b.nonTerminals name }) := by
  simp only [registerNonTerminal, Attempt.runFrom_bind, Attempt.runFrom_get, ht,
    Bool.false_eq_true, if_false]
  cases hi : b.nonTerminalIndex? name with
  | none =>
    have hn : name ∉ b.nonTerminals.map Prod.fst := by
      rw [nonTerminalIndex?, List.findIdx?_eq_none_iff] at hi
      rw [List.mem_map]
      rintro ⟨entry, hmem, rfl⟩
      simpa using hi entry hmem
    exact ⟨_, by rw [withNonTerminal, if_neg hn]; rfl⟩
  | some i =>
    have hn : name ∈ b.nonTerminals.map Prod.fst := by
      obtain ⟨hlt, h, -⟩ := List.findIdx?_eq_some_iff_getElem.mp hi
      exact List.mem_map.mpr ⟨_, List.getElem_mem hlt, by simpa using h⟩
    exact ⟨⟨i⟩, by rw [withNonTerminal, if_pos hn]; rfl⟩

def add (b : Builder τ) : Registration τ → Builder τ
  | .terminal name token => { b with terminals := b.terminals ++ [(name, some token)] }
  | .nonTerminal name => { b with nonTerminals := withNonTerminal b.nonTerminals name }
  | .rule name symbols action =>
    { b with nonTerminals := withRule b.nonTerminals name ⟨symbols, action⟩ }
  | .start name => { b with start := some name }

theorem hasTerminal_add {x : Registration τ} :
    (b.add x).hasTerminal name = true ↔ b.hasTerminal name = true ∨ x.terminal? = some name := by
  cases x <;> simp [hasTerminal, add, Registration.terminal?]

theorem hasNonTerminal_add {x : Registration τ} :
    (b.add x).hasNonTerminal name = true ↔
      b.hasNonTerminal name = true ∨ x.nonTerminal? = some name := by
  simp only [hasNonTerminal_iff]
  cases x with
  | terminal other token => simp [add, Registration.nonTerminal?]
  | nonTerminal other =>
    simp only [add, Registration.nonTerminal?, map_fst_withNonTerminal, Option.some_inj]
    split
    · rename_i h
      exact (or_iff_left_of_imp fun heq => heq ▸ h).symm
    · simp [eq_comm]
  | rule other symbols action =>
    simp only [add, Registration.nonTerminal?, map_fst_withRule, Option.some_inj]
    split
    · rename_i h
      exact (or_iff_left_of_imp fun heq => heq ▸ h).symm
    · simp [eq_comm]
  | start other => simp [add, Registration.nonTerminal?]

variable [Token τ]

def Accepts (b : Builder τ) : Registration τ → Prop
  | .terminal name token =>
    b.hasTerminal name = false ∧ b.hasNonTerminal name = false ∧ b.clash? token = none
  | .nonTerminal name | .start name => b.hasTerminal name = false
  | .rule name symbols action => symbols ≠ [] ∧ action ≠ [] ∧ b.hasTerminal name = false

theorem stage_of_accepts {x : Registration τ} (h : b.Accepts x) :
    x.stage.runFrom b = (.ok (), b.add x) := by
  cases x with
  | terminal name token =>
    obtain ⟨ht, hn, hc⟩ := h
    rw [Registration.stage, Attempt.runFrom_bind, registerTerminal_eq_ok ht hn hc]
    rfl
  | nonTerminal name =>
    obtain ⟨nt, hrun⟩ := registerNonTerminal_eq_ok h
    rw [Registration.stage, Attempt.runFrom_bind, hrun]
    rfl
  | rule name symbols action =>
    obtain ⟨hs, ha, ht⟩ := h
    rw [Registration.stage, registerRule_eq_ok (by simpa using hs) (by simpa using ha) ht]
    rfl
  | start name =>
    have ht : b.hasTerminal name = false := h
    simp [Registration.stage, setStart, Attempt.runFrom_bind, ht, add]

theorem stage_of_not_accepts {x : Registration τ} (h : ¬ b.Accepts x) :
    ∃ e, x.stage.runFrom b = (.error e, b) := by
  cases x with
  | terminal name token =>
    cases ht : b.hasTerminal name with
    | true => simp [Registration.stage, registerTerminal, Attempt.runFrom_bind, ht]
    | false =>
      cases hn : b.hasNonTerminal name with
      | true => simp [Registration.stage, registerTerminal, Attempt.runFrom_bind, ht, hn]
      | false =>
        cases hc : b.clash? token with
        | some existing =>
          simp [Registration.stage, registerTerminal, Attempt.runFrom_bind, ht, hn, hc]
        | none => exact (h ⟨ht, hn, hc⟩).elim
  | nonTerminal name =>
    have ht : b.hasTerminal name = true := by simpa [Accepts] using h
    simp [Registration.stage, registerNonTerminal, Attempt.runFrom_bind, ht]
  | rule name symbols action =>
    cases hs : symbols.isEmpty with
    | true => simp [Registration.stage, registerRule, hs]
    | false =>
      cases ha : action.isEmpty with
      | true => simp [Registration.stage, registerRule, hs, ha]
      | false =>
        cases ht : b.hasTerminal name with
        | true =>
          simp [Registration.stage, registerRule, registerNonTerminal, Attempt.runFrom_bind, hs,
            ha, ht]
        | false => exact (h ⟨by simpa using hs, by simpa using ha, ht⟩).elim
  | start name =>
    have ht : b.hasTerminal name = true := by simpa [Accepts] using h
    simp [Registration.stage, setStart, Attempt.runFrom_bind, ht]

theorem Accepts.of_terminal? {x : Registration τ} (h : b.Accepts x)
    (hx : x.terminal? = some name) :
    b.hasTerminal name = false ∧ b.hasNonTerminal name = false := by
  cases x with
  | terminal _ _ =>
    cases hx
    exact ⟨h.1, h.2.1⟩
  | _ => exact nomatch hx

theorem Accepts.of_nonTerminal? {x : Registration τ} (h : b.Accepts x)
    (hx : x.nonTerminal? = some name) : b.hasTerminal name = false := by
  cases x with
  | nonTerminal _ =>
    cases hx
    exact h
  | rule _ _ _ =>
    cases hx
    exact h.2.2
  | _ => exact nomatch hx

/-- Only the empty string is a terminal without a token, no name is that of a terminal and of a
nonterminal, and no rule is empty. -/
structure IsSound (b : Builder τ) : Prop where
  terminals : ∃ rest, b.terminals = (emptyStringName, none) :: rest ∧ ∀ entry ∈ rest, entry.2 ≠ none
  disjoint : ∀ name, ¬ (b.hasTerminal name = true ∧ b.hasNonTerminal name = true)
  rules : ∀ d ∈ GrammarDecl.ungrouped b.nonTerminals, d.symbols ≠ [] ∧ d.action ≠ []

omit [Token τ] in
theorem isSound_empty : (empty : Builder τ).IsSound where
  terminals := ⟨[], rfl, nofun⟩
  disjoint := by simp [hasNonTerminal, empty]
  rules := nofun

namespace IsSound

variable {x : Registration τ}

theorem disjoint_add (hb : b.IsSound) (h : b.Accepts x) (name : String) :
    ¬ ((b.add x).hasTerminal name = true ∧ (b.add x).hasNonTerminal name = true) := by
  rw [hasTerminal_add, hasNonTerminal_add]
  rintro ⟨ht | ht, hn | hn⟩
  · exact hb.disjoint name ⟨ht, hn⟩
  · exact Bool.false_ne_true ((h.of_nonTerminal? hn).symm.trans ht)
  · exact Bool.false_ne_true ((h.of_terminal? ht).2.symm.trans hn)
  · cases x <;> simp [Registration.terminal?, Registration.nonTerminal?] at ht hn

theorem add (hb : b.IsSound) (h : b.Accepts x) : (b.add x).IsSound := by
  have hdisjoint := hb.disjoint_add h
  obtain ⟨⟨rest, hrest, htoken⟩, -, hrules⟩ := hb
  cases x with
  | terminal name token =>
    refine ⟨⟨rest ++ [(name, some token)], by simp [Builder.add, hrest], ?_⟩, hdisjoint, hrules⟩
    simpa [or_imp, forall_and] using htoken
  | nonTerminal name =>
    refine ⟨⟨rest, hrest, htoken⟩, hdisjoint, fun d hd => hrules d ?_⟩
    simp only [Builder.add, withNonTerminal] at hd
    split at hd
    · exact hd
    · simpa [GrammarDecl.ungrouped, GrammarDecl.groupRules] using hd
  | rule name symbols action =>
    obtain ⟨hs, ha, -⟩ := h
    refine ⟨⟨rest, hrest, htoken⟩, hdisjoint, fun d hd => ?_⟩
    rcases GrammarDecl.mem_ungrouped_withRule.mp hd with hd | rfl
    · exact hrules d hd
    · exact ⟨hs, ha⟩
  | start name => exact ⟨⟨rest, hrest, htoken⟩, hdisjoint, hrules⟩

theorem stage (hb : b.IsSound) (x : Registration τ) : (x.stage.runFrom b).2.IsSound := by
  by_cases h : b.Accepts x
  · rw [stage_of_accepts h]
    exact hb.add h
  · obtain ⟨e, he⟩ := stage_of_not_accepts h
    rw [he]
    exact hb

end IsSound

/-- What is left after registrations some of which may have been refused. -/
def after (xs : List (Registration τ)) : Builder τ :=
  xs.foldl (fun b x => (x.stage.runFrom b).2) .empty

theorem isSound_after (xs : List (Registration τ)) : (after xs).IsSound := by
  have hfold (b : Builder τ) (hb : b.IsSound) :
      (xs.foldl (fun b x => (x.stage.runFrom b).2) b).IsSound := by
    induction xs generalizing b with
    | nil => exact hb
    | cons x xs ih => exact ih _ (hb.stage x)
  exact hfold .empty isSound_empty

end Builder

end ActionGrammar
