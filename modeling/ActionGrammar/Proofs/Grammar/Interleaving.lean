import ActionGrammar.GrammarText.Token
import ActionGrammar.Proofs.Grammar.Built
import ActionGrammar.Proofs.Grammar.Registration

/-! # The order of registrations

Terminals may be registered at any time. A name that is also used for a
nonterminal is refused wherever the two meet: at the terminal, at the
nonterminal, or when the grammar is built, if it is only the name of the start.
So a terminal can be moved in front of whatever it comes behind, and all orders
agree with the one that has the terminals first.
-/

namespace ActionGrammar

variable {π τ : Type} [Token τ] {r : Registry π} {g : Grammar π τ}

namespace Builder

variable {b : Builder τ} {name : String} {token : τ} {x y : Registration τ}
  {xs ts os : List (Registration τ)}

/-- The registrations are all accepted from here on, and the grammar is built from them. -/
def Yields (b : Builder τ) (r : Registry π) (xs : List (Registration τ)) (g : Grammar π τ) : Prop :=
  ∃ u b', (Registration.stageAll xs).runFrom b = (.ok u, b') ∧ b'.build r = .ok g

theorem yields_nil : b.Yields r [] g ↔ b.build r = .ok g := by
  constructor
  · rintro ⟨u, b', h, hb⟩
    cases h
    exact hb
  · intro h
    exact ⟨(), b, rfl, h⟩

theorem yields_cons : b.Yields r (x :: xs) g ↔ b.Accepts x ∧ (b.add x).Yields r xs g := by
  unfold Yields
  rw [Registration.stageAll, Attempt.runFrom_bind]
  by_cases h : b.Accepts x
  · rw [stage_of_accepts h]
    exact (and_iff_right h).symm
  · obtain ⟨e, he⟩ := stage_of_not_accepts h
    rw [he]
    simp [h]

theorem not_yields_of_start (hb : b.IsSound) (hs : b.start = some name)
    (ht : b.hasTerminal name = true) (hxs : ∀ x ∈ xs, x.isStart = false) : ¬ b.Yields r xs g := by
  induction xs generalizing b with
  | nil =>
    rw [yields_nil, build_eq_ok_iff]
    rintro ⟨first, rest, start, sets, -, hi, -⟩
    rw [hs, Option.getD_some] at hi
    obtain ⟨hlt, h, -⟩ := List.findIdx?_eq_some_iff_getElem.mp hi
    have hn : b.hasNonTerminal name = true :=
      hasNonTerminal_iff.mpr (List.mem_map.mpr ⟨_, List.getElem_mem hlt, by simpa using h⟩)
    exact hb.disjoint name ⟨ht, hn⟩
  | cons x xs ih =>
    obtain ⟨hx, hxs⟩ := List.forall_mem_cons.mp hxs
    rw [yields_cons]
    rintro ⟨h, hy⟩
    refine ih (hb.add h) ?_ (hasTerminal_add.mpr (.inl ht)) hxs hy
    cases x with
    | start other => exact nomatch hx
    | _ => exact hs

omit [Token τ] in
theorem add_comm (hy : y.isTerminal = false) :
    (b.add (.terminal name token)).add y = (b.add y).add (.terminal name token) := by
  cases y with
  | terminal _ _ => exact nomatch hy
  | _ => rfl

theorem accepts_terminal_add (hy : y.isTerminal = false) :
    (b.add y).Accepts (.terminal name token) ↔
      b.Accepts (.terminal name token) ∧ y.nonTerminal? ≠ some name := by
  have ht : (b.add y).terminals = b.terminals := by
    cases y with
    | terminal _ _ => exact nomatch hy
    | _ => rfl
  have hn : (b.add y).hasNonTerminal name = false ↔
      b.hasNonTerminal name = false ∧ y.nonTerminal? ≠ some name := by
    simp only [Bool.eq_false_iff, ne_eq, hasNonTerminal_add, not_or]
  simp only [Accepts, hasTerminal, clash?, ht, hn]
  tauto

theorem accepts_add_terminal (hy : y.isTerminal = false) :
    (b.add (.terminal name token)).Accepts y ↔
      b.Accepts y ∧ y.nonTerminal? ≠ some name ∧ y ≠ .start name := by
  have ht (other : String) : (b.add (.terminal name token)).hasTerminal other = false ↔
      b.hasTerminal other = false ∧ name ≠ other := by
    simp only [Bool.eq_false_iff, ne_eq, hasTerminal_add, Registration.terminal?, Option.some_inj,
      not_or]
  cases y with
  | terminal _ _ => cases hy
  | _ =>
    simp only [Accepts, ht, Registration.nonTerminal?, ne_eq, Option.some_inj, reduceCtorEq,
      Registration.start.injEq, not_false_eq_true, and_true, true_and, and_assoc,
      eq_comm (a := name)]

/-- A terminal can be moved in front of what it comes behind, unless the start changes again. -/
theorem yields_swap (hb : b.IsSound) (hy : y.isTerminal = false)
    (hs : y.isStart = true → ∀ x ∈ xs, x.isStart = false) :
    b.Yields r (y :: .terminal name token :: xs) g ↔
      b.Yields r (.terminal name token :: y :: xs) g := by
  simp only [yields_cons, accepts_terminal_add hy, accepts_add_terminal hy, add_comm hy]
  by_cases hname : y = .start name
  · subst hname
    refine iff_of_false ?_ fun h => h.2.1.2.2 rfl
    rintro ⟨hstart, hterm, h⟩
    have hsound := (hb.add hstart).add ((accepts_terminal_add hy).mpr hterm)
    exact not_yields_of_start hsound rfl (hasTerminal_add.mpr (.inr rfl)) (hs rfl) h
  · tauto

theorem yields_terminals_first (hb : b.IsSound) (hy : y.isTerminal = false)
    (hts : ∀ x ∈ ts, x.isTerminal = true)
    (hs : y.isStart = true → ∀ x ∈ os, x.isStart = false) :
    b.Yields r (y :: (ts ++ os)) g ↔ b.Yields r (ts ++ y :: os) g := by
  induction ts generalizing b with
  | nil => rfl
  | cons t ts ih =>
    obtain ⟨ht, hrest⟩ := List.forall_mem_cons.mp hts
    cases t with
    | terminal name token =>
      have hs' (h : y.isStart = true) : ∀ x ∈ ts ++ os, x.isStart = false :=
        List.forall_mem_append.mpr ⟨fun x hx => Registration.isStart_of_isTerminal (hrest x hx),
          hs h⟩
      calc b.Yields r (y :: .terminal name token :: (ts ++ os)) g
        _ ↔ b.Yields r (.terminal name token :: y :: (ts ++ os)) g := yields_swap hb hy hs'
        _ ↔ b.Accepts (.terminal name token) ∧
            (b.add (.terminal name token)).Yields r (y :: (ts ++ os)) g := yields_cons
        _ ↔ b.Accepts (.terminal name token) ∧
            (b.add (.terminal name token)).Yields r (ts ++ y :: os) g :=
          and_congr_right fun h => ih (hb.add h) hrest
        _ ↔ b.Yields r (.terminal name token :: (ts ++ y :: os)) g := yields_cons.symm
    | _ => exact nomatch ht

theorem yields_iff_terminals_first (hb : b.IsSound) (hs : xs.countP Registration.isStart ≤ 1) :
    b.Yields r xs g ↔
      b.Yields r (xs.filter (·.isTerminal) ++ xs.filter (!·.isTerminal)) g := by
  induction xs generalizing b with
  | nil => rfl
  | cons x xs ih =>
    rw [List.countP_cons] at hs
    cases hx : x.isTerminal with
    | true =>
      simp only [List.filter_cons, hx, if_true, Bool.not_true, Bool.false_eq_true, if_false,
        List.cons_append, yields_cons]
      exact and_congr_right fun h => ih (hb.add h) (by omega)
    | false =>
      simp only [List.filter_cons, hx, Bool.false_eq_true, if_false, Bool.not_false, if_true]
      have hrest (h : x.isStart = true) : ∀ y ∈ xs.filter (!·.isTerminal), y.isStart = false := by
        intro y hy
        have hzero : xs.countP Registration.isStart = 0 := by
          simp only [h, if_true] at hs
          omega
        simpa using List.countP_eq_zero.mp hzero y (List.mem_of_mem_filter hy)
      rw [← yields_terminals_first hb hx (fun y hy => (List.mem_filter.mp hy).2) hrest,
        yields_cons, yields_cons]
      exact and_congr_right fun h => ih (hb.add h) (by omega)

end Builder

namespace Registration

omit [Token τ] in
theorem countP_isStart_filter (xs : List (Registration τ)) :
    (xs.filter (!·.isTerminal)).countP isStart = xs.countP isStart := by
  rw [List.countP_filter]
  refine List.countP_congr fun x _ => ?_
  cases x <;> simp [isStart, isTerminal, terminal?]

theorem stageAll_build_eq_ok_iff {xs : List (Registration τ)} :
    (stageAll xs).build r = .ok g ↔ Builder.empty.Yields r xs g := Staging.build_eq_ok_iff

/-- The order matters only among the terminals, and among everything else: two sequences that
agree on both lead to the same grammar, or to none. The start is set at most once, as a name for
it that is overridden is not held against a terminal. -/
theorem build_interleaving {xs ys : List (Registration τ)} (r : Registry π)
    (hterminals : xs.filter (·.isTerminal) = ys.filter (·.isTerminal))
    (hothers : xs.filter (!·.isTerminal) = ys.filter (!·.isTerminal))
    (hstart : xs.countP isStart ≤ 1) :
    ∀ g, (stageAll xs).build r = .ok g ↔ (stageAll ys).build r = .ok g := by
  intro g
  have hcount : ys.countP isStart ≤ 1 := by
    rw [← countP_isStart_filter, ← hothers, countP_isStart_filter]
    exact hstart
  rw [stageAll_build_eq_ok_iff, stageAll_build_eq_ok_iff,
    Builder.yields_iff_terminals_first Builder.isSound_empty hstart,
    Builder.yields_iff_terminals_first Builder.isSound_empty hcount, hterminals, hothers]

/-- A rule may use a terminal that is registered after it. -/
theorem build_interleaving_late :
    ∃ g : Grammar Unit GrammarText.Token,
      (stageAll [.rule "Start" ["int"] [.constant (.int 0)],
        .terminal "int" (.reference .int)]).build ⟨[]⟩ = .ok g := by
  refine ⟨_, (build_interleaving ⟨[]⟩ ?_ ?_ ?_ _).mp (rfl :
    (stageAll [.terminal "int" (.reference .int),
      .rule "Start" ["int"] [.constant (.int 0)]]).build ⟨[]⟩ = _)⟩
  · rfl
  · rfl
  · decide

end Registration

end ActionGrammar
