import ActionGrammar.Proofs.Grammar.LeftRecursion

/-! # Reported cycles

The names that are reported for a left recursion are those of a cycle that is in the
grammar: each nonterminal of it can begin with the next one, and none but the first
one is met twice.
-/

namespace ActionGrammar

namespace Grammar

variable {π τ : Type} [Token τ] {g : Grammar π τ} {nt nt' : NonTerminal} {ss : List Symbol}

theorem nullable_iff_forall : g.Nullable ss ↔
    ∀ s ∈ ss, s.isEmptyString = true ∨ ∃ f : Forest τ, g.Derives [s] f ∧ f.yield = [] := by
  have hsymbol (s : Symbol) : g.Nullable [s] ↔
      s.isEmptyString = true ∨ ∃ f : Forest τ, g.Derives [s] f ∧ f.yield = [] := by
    constructor
    · exact fun h => .inr h.exists_derives
    · rintro (hs | ⟨f, hf, hy⟩)
      · obtain rfl : s = .terminal ⟨0⟩ := by simpa [Symbol.isEmptyString] using hs
        exact nullable_terminal_iff.mpr rfl
      · exact hf.nullable hy
  induction ss with
  | nil => simp [Nullable.nil]
  | cons s ss ih =>
    rw [nullable_cons_iff, List.forall_mem_cons]
    exact and_congr (hsymbol s) ih

/-- Some rule of the first nonterminal has the second one at a place where every symbol in front is
the empty string or derives it. -/
def CanBeginWith (g : Grammar π τ) (nt nt' : NonTerminal) : Prop :=
  ∃ k r α β, g.rule? nt k = some r ∧ r.symbols = α ++ .nonTerminal nt' :: β ∧
    ∀ s ∈ α, s.isEmptyString = true ∨ ∃ f : Forest τ, g.Derives [s] f ∧ f.yield = []

theorem LeftEdge.canBeginWith (h : g.LeftEdge nt nt') : g.CanBeginWith nt nt' := by
  obtain ⟨k, r, α, β, hr, hs, hα⟩ := h
  exact ⟨k, r, α, β, hr, hs, nullable_iff_forall.mp hα⟩

end Grammar

namespace LeftRecursion

variable {π τ : Type} [Token τ] {g : Grammar π τ}

/-- What is reported is a list of names, joined by arrows, of nonterminals that make up a cycle. -/
theorem check_reports_cycle {b : Builder τ} {r : Registry π} (hb : b.build r = .ok g)
    {names : List String} (h : check g = .error (.leftRecursion names)) :
    (GrammarError.leftRecursion names).message = "left recursion: " ++ " -> ".intercalate names ∧
    ∃ nts : List NonTerminal, nts.mapM g.nonTerminalName = .ok names ∧ 2 ≤ nts.length ∧
      nts.head? = nts.getLast? ∧ nts.dropLast.Nodup ∧ nts.IsChain g.CanBeginWith := by
  refine ⟨rfl, ?_⟩
  rcases check_outcome (Builder.isClosed_of_build hb) with ⟨hok, -⟩ | ⟨e, he, hcycle⟩
  · exact nomatch h.symm.trans hok
  · obtain ⟨_, names', ⟨nt, inner, rfl, hnodup, hchain⟩, hnames, rfl⟩ := hcycle
    cases h.symm.trans he
    refine ⟨_, hnames, ?_, ?_, ?_, hchain.imp fun _ _ he => he.canBeginWith⟩
    · simp
    · rw [List.getLast?_concat]
      rfl
    · rwa [List.dropLast_concat]

def detourBuilder : Builder GrammarText.Token where
  terminals := [(emptyStringName, none), ("int", some (.reference .int))]
  nonTerminals :=
    [("Start", [⟨["Sign", "Term"], [.constant (.int 0)]⟩]),
      ("Sign", [⟨["int"], [.constant (.int 0)]⟩, ⟨[emptyStringName], [.constant (.int 0)]⟩]),
      ("Term", [⟨["int"], [.constant (.int 0)]⟩,
        ⟨["Sign", emptyStringName, "Factor"], [.constant (.int 0)]⟩]),
      ("Factor", [⟨["Sign", "Sign", "Term", "int"], [.constant (.int 0)]⟩])]
  start := none

/-- The start is on the path of the walk, but not in the cycle. -/
theorem check_reports_cycle_detour : ∃ (g : Grammar Unit GrammarText.Token) (nts : List NonTerminal),
    detourBuilder.build ⟨[]⟩ = .ok g ∧
    check g = .error (.leftRecursion ["Term", "Factor", "Term"]) ∧
    nts.mapM g.nonTerminalName = .ok ["Term", "Factor", "Term"] ∧
    nts.dropLast.Nodup ∧ nts.IsChain g.CanBeginWith := by
  obtain ⟨g, hg⟩ : ∃ g : Grammar Unit GrammarText.Token, detourBuilder.build ⟨[]⟩ = .ok g :=
    ⟨_, rfl⟩
  have hcheck : (detourBuilder.build (⟨[]⟩ : Registry Unit)).bind check =
      .error (.leftRecursion ["Term", "Factor", "Term"]) := by decide +kernel
  have hc : check g = .error (.leftRecursion ["Term", "Factor", "Term"]) := by
    simpa [hg, Except.bind] using hcheck
  obtain ⟨-, nts, hnames, -, -, hnodup, hchain⟩ := check_reports_cycle hg hc
  exact ⟨g, nts, hg, hc, hnames, hnodup, hchain⟩

end LeftRecursion

end ActionGrammar
