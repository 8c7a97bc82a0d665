import ActionGrammar.Proofs.Parse.Visits
import Mathlib.Logic.Relation

/-! # Leftmost derivations

A leftmost derivation replaces the first nonterminal that is left. A parse tries
rules only where one leads: behind terminals that match the tokens in front of
its position, and before the symbol that it is about to match.
-/

namespace ActionGrammar.Grammar

variable {π τ : Type}

inductive LeftmostStep (g : Grammar π τ) : List Symbol → List Symbol → Prop
  | expand {nt : NonTerminal} {k : Nat} {r : Rule π} {β : List Symbol} : g.rule? nt k = some r →
      LeftmostStep g (.nonTerminal nt :: β) (r.symbols ++ β)
  | behind {id : Terminal.Id} {α β : List Symbol} : LeftmostStep g α β →
      LeftmostStep g (.terminal id :: α) (.terminal id :: β)

abbrev LeftmostDerives (g : Grammar π τ) : List Symbol → List Symbol → Prop :=
  Relation.ReflTransGen g.LeftmostStep

variable {g : Grammar π τ} {α β γ : List Symbol} {nt : NonTerminal} {k : Nat} {r : Rule π}

theorem LeftmostStep.append_right (h : g.LeftmostStep α β) (γ : List Symbol) :
    g.LeftmostStep (α ++ γ) (β ++ γ) := by
  induction h with
  | expand hr =>
    rw [List.cons_append, List.append_assoc]
    exact .expand hr
  | behind _ ih => exact .behind ih

theorem LeftmostDerives.append_right (h : g.LeftmostDerives α β) (γ : List Symbol) :
    g.LeftmostDerives (α ++ γ) (β ++ γ) :=
  Relation.ReflTransGen.lift (· ++ γ) (fun _ _ hs => LeftmostStep.append_right hs γ) _ _ h

theorem LeftmostDerives.behind {id : Terminal.Id} (h : g.LeftmostDerives α β) :
    g.LeftmostDerives (.terminal id :: α) (.terminal id :: β) :=
  Relation.ReflTransGen.lift (Symbol.terminal id :: ·) (fun _ _ hs => LeftmostStep.behind hs) _ _ h

variable [Token τ] {tokens xs ys : List τ}

/-- The symbols are terminals that match the tokens one to one, apart from empty strings. -/
inductive Spells (g : Grammar π τ) : List Symbol → List τ → Prop
  | nil : Spells g [] []
  | empty {α : List Symbol} {xs : List τ} : Spells g α xs → Spells g (.terminal ⟨0⟩ :: α) xs
  | token {id : Terminal.Id} {x : τ} {α : List Symbol} {xs : List τ} : g.Matches id x →
      Spells g α xs → Spells g (.terminal id :: α) (x :: xs)

theorem Spells.append (h : g.Spells α xs) (h' : g.Spells β ys) : g.Spells (α ++ β) (xs ++ ys) := by
  induction h with
  | nil => exact h'
  | empty _ ih => exact .empty ih
  | token hm _ ih => exact .token hm ih

theorem Spells.append_left (hα : g.Spells α xs) (h : g.LeftmostDerives β γ) :
    g.LeftmostDerives (α ++ β) (α ++ γ) := by
  induction hα with
  | nil => exact h
  | empty _ ih => exact ih.behind
  | token _ _ ih => exact ih.behind

theorem Derives.exists_leftmost {ss : List Symbol} {f : Forest τ} (h : g.Derives ss f) :
    ∃ α, g.LeftmostDerives ss α ∧ g.Spells α f.yield := by
  induction h with
  | nil => exact ⟨[], .refl, .nil⟩
  | empty _ ih =>
    obtain ⟨α, hα, hs⟩ := ih
    exact ⟨_, hα.behind, .empty hs⟩
  | token hm _ ih =>
    obtain ⟨α, hα, hs⟩ := ih
    exact ⟨_, hα.behind, .token hm hs⟩
  | @node nt k r ss _ _ hr _ _ ihc ih =>
    obtain ⟨γ, hγ, hc⟩ := ihc
    obtain ⟨α, hα, hs⟩ := ih
    refine ⟨γ ++ α, ?_, hc.append hs⟩
    have hexpand : g.LeftmostDerives (.nonTerminal nt :: ss) (r.symbols ++ ss) :=
      .single (.expand hr)
    have hchildren : g.LeftmostDerives (r.symbols ++ ss) (γ ++ ss) := hγ.append_right ss
    exact (hexpand.trans hchildren).trans (hc.append_left hα)

/-- Some leftmost derivation from the start leads to the symbols, behind terminals that match the
tokens in front of the position. -/
def Reaches (g : Grammar π τ) (tokens : List τ) (ss : List Symbol) (i : Nat) : Prop :=
  i ≤ tokens.length ∧ ∃ α β, g.LeftmostDerives [.nonTerminal g.start] (α ++ (ss ++ β)) ∧
    g.Spells α (tokens.take i)

variable {ss : List Symbol} {s : Symbol} {i j m : Nat}

theorem reaches_start : g.Reaches tokens [.nonTerminal g.start] 0 :=
  ⟨Nat.zero_le _, [], [], .refl, .nil⟩

namespace Reaches

theorem head (h : g.Reaches tokens (s :: ss) i) : g.Reaches tokens [s] i := by
  obtain ⟨hi, α, β, hd, hα⟩ := h
  exact ⟨hi, α, ss ++ β, hd, hα⟩

theorem nil (h : g.Reaches tokens ss i) : g.Reaches tokens [] i := by
  obtain ⟨hi, α, β, hd, hα⟩ := h
  exact ⟨hi, α, ss ++ β, hd, hα⟩

theorem nested (h : g.Reaches tokens (.nonTerminal nt :: ss) i) (hr : g.rule? nt k = some r) :
    g.Reaches tokens r.symbols i := by
  obtain ⟨hi, α, β, hd, hα⟩ := h
  exact ⟨hi, α, ss ++ β, hd.trans (hα.append_left (.single (.expand hr))), hα⟩

theorem behind {f : Forest τ} (h : g.Reaches tokens (s :: ss) i)
    (hs : g.Recognizes tokens [s] i (some (f, j))) : g.Reaches tokens ss j := by
  obtain ⟨hi, α, β, hd, hα⟩ := h
  obtain ⟨hf, hy, rfl⟩ := hs.derives _ _ rfl
  obtain ⟨γ, hγ, hspell⟩ := hf.exists_leftmost
  have hlen := hy.length_le
  rw [List.length_drop] at hlen
  refine ⟨by omega, α ++ γ, β, ?_, ?_⟩
  · rw [List.append_assoc]
    exact hd.trans (hα.append_left (hγ.append_right (ss ++ β)))
  · rw [List.take_add, ← List.prefix_iff_eq_take.mp hy]
    exact hα.append hspell

end Reaches

/-- Terminals are tested, and nonterminals are expanded, where a leftmost derivation leads. -/
theorem Visits.reaches {x : Visit τ} (h : g.Visits tokens ss i x) (hss : g.Reaches tokens ss i) :
    (∀ m, x = .test m → ∃ id, id ≠ ⟨0⟩ ∧ g.Reaches tokens [.terminal id] m) ∧
      ∀ nt m, x = .expand nt m → g.Reaches tokens [.nonTerminal nt] m := by
  induction h with
  | @test id _ _ hid =>
    constructor
    · rintro m ⟨⟩
      exact ⟨id, hid, hss.head⟩
    · nofun
  | expand =>
    constructor
    · nofun
    · rintro nt m ⟨⟩
      exact hss.head
  | reduce => exact ⟨nofun, nofun⟩
  | fallback => exact ⟨nofun, nofun⟩
  | nested hr _ _ ih => exact ih (hss.nested hr)
  | behind hs _ ih => exact ih (hss.behind hs)

end ActionGrammar.Grammar
