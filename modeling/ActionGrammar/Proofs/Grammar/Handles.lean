import ActionGrammar.GrammarText.Token
import ActionGrammar.Proofs.Grammar.Dump
import ActionGrammar.Proofs.Grammar.Registration

/-! # Handles

A builder only grows: whatever is registered later, and whatever is refused, an
entry keeps its place and its name. So a handle denotes the same symbol ever
after, also in the grammar that is built. The reference tokens of terminals are
kept apart, and with them the tokens that match the terminals.
-/

namespace ActionGrammar.Builder

variable {π τ : Type} {b b' b'' : Builder τ} {name : String} {token : τ}

/-- The second builder has the entries of the first one, in their places. -/
structure Extends (b b' : Builder τ) : Prop where
  terminals : b.terminals <+: b'.terminals
  nonTerminals : b.nonTerminals.map Prod.fst <+: b'.nonTerminals.map Prod.fst

theorem Extends.refl (b : Builder τ) : b.Extends b := ⟨List.prefix_refl _, List.prefix_refl _⟩

theorem Extends.trans (h : b.Extends b') (h' : b'.Extends b'') : b.Extends b'' :=
  ⟨h.terminals.trans h'.terminals, h.nonTerminals.trans h'.nonTerminals⟩

theorem extends_add (b : Builder τ) (x : Registration τ) : b.Extends (b.add x) := by
  cases x with
  | terminal name token => exact ⟨List.prefix_append _ _, List.prefix_refl _⟩
  | nonTerminal name =>
    refine ⟨List.prefix_refl _, ?_⟩
    rw [add, map_fst_withNonTerminal]
    split
    · exact List.prefix_refl _
    · exact List.prefix_append _ _
  | rule name symbols action =>
    refine ⟨List.prefix_refl _, ?_⟩
    rw [add, map_fst_withRule]
    split
    · exact List.prefix_refl _
    · exact List.prefix_append _ _
  | start name => exact ⟨List.prefix_refl _, List.prefix_refl _⟩

/-! ### What a handle denotes -/

def HasTerminalAt (b : Builder τ) (id : Terminal.Id) (name : String) (token : τ) : Prop :=
  b.terminals[id.index]? = some (name, some token)

def HasNonTerminalAt (b : Builder τ) (nt : NonTerminal) (name : String) : Prop :=
  (b.nonTerminals.map Prod.fst)[nt.index]? = some name

theorem HasTerminalAt.extend {id : Terminal.Id} (h : b.HasTerminalAt id name token)
    (hb : b.Extends b') : b'.HasTerminalAt id name token := by
  obtain ⟨hlt, heq⟩ := List.getElem?_eq_some_iff.mp h
  exact (List.prefix_iff_getElem?.mp hb.terminals _ hlt).trans (congrArg some heq)

theorem HasNonTerminalAt.extend {nt : NonTerminal} (h : b.HasNonTerminalAt nt name)
    (hb : b.Extends b') : b'.HasNonTerminalAt nt name := by
  obtain ⟨hlt, heq⟩ := List.getElem?_eq_some_iff.mp h
  exact (List.prefix_iff_getElem?.mp hb.nonTerminals _ hlt).trans (congrArg some heq)

theorem terminal_eq_ok_iff_of_build {r : Registry π} {g : Grammar π τ} (hb : b.build r = .ok g)
    {id : Terminal.Id} {t : Terminal τ} :
    g.terminal id = .ok t ↔ b.terminals[id.index]? = some (t.name, t.token) := by
  obtain ⟨first, rest, start, sets, -, -, -, rfl⟩ := build_eq_ok_iff.mp hb
  obtain ⟨name, token⟩ := t
  rcases h : b.terminals[id.index]? with _ | entry <;>
    simp [Grammar.terminal, h, Prod.ext_iff]

theorem HasNonTerminalAt.of_build {r : Registry π} {g : Grammar π τ} {nt : NonTerminal}
    (h : b.HasNonTerminalAt nt name) (hb : b.build r = .ok g) :
    g.nonTerminalName nt = .ok name := by
  rw [HasNonTerminalAt, List.getElem?_map] at h
  obtain ⟨entry, hentry, rfl⟩ := Option.map_eq_some_iff.mp h
  exact nonTerminalName_of_build hb hentry

theorem hasNonTerminalAt_of_register {nt : NonTerminal}
    (h : (registerNonTerminal name).runFrom b = (.ok nt, b')) : b'.HasNonTerminalAt nt name := by
  cases ht : b.hasTerminal name with
  | true => simp [registerNonTerminal, ht, Attempt.runFrom_bind] at h
  | false =>
    simp only [registerNonTerminal, ht, Attempt.runFrom_bind, Attempt.runFrom_get,
      Bool.false_eq_true, if_false] at h
    cases hi : b.nonTerminalIndex? name with
    | some i =>
      rw [hi] at h
      cases h
      obtain ⟨hlt, hname, -⟩ := List.findIdx?_eq_some_iff_getElem.mp hi
      have hname : b.nonTerminals[i].1 = name := eq_of_beq hname
      simp [HasNonTerminalAt, hlt, hname]
    | none =>
      rw [hi] at h
      cases h
      simp [HasNonTerminalAt]

variable [Token τ]

theorem hasTerminalAt_of_register {id : Terminal.Id}
    (h : (registerTerminal name token).runFrom b = (.ok id, b')) :
    b'.HasTerminalAt id name token := by
  by_cases ha : b.Accepts (.terminal name token)
  · rw [registerTerminal_eq_ok ha.1 ha.2.1 ha.2.2] at h
    cases h
    simp [HasTerminalAt]
  · obtain ⟨e, he⟩ := stage_of_not_accepts ha
    rw [Registration.stage, Attempt.runFrom_bind, h] at he
    cases he

/-! ### Reference tokens -/

def IsApart (entry other : String × Option τ) : Prop :=
  ∀ s ∈ entry.2, ∀ t ∈ other.2, Token.compatible s t = false ∧ Token.compatible t s = false

theorem clash?_eq_none_iff :
    b.clash? token = none ↔ ∀ entry ∈ b.terminals, IsApart entry (name, some token) := by
  simp [clash?, IsApart, Option.any_eq_false]

def KeepsApart (b : Builder τ) : Prop := b.terminals.Pairwise IsApart

theorem KeepsApart.add (hb : b.KeepsApart) {x : Registration τ} (h : b.Accepts x) :
    (b.add x).KeepsApart := by
  cases x with
  | terminal name token =>
    exact List.pairwise_append.mpr ⟨hb, List.pairwise_singleton _ _, fun entry he other ho =>
      List.mem_singleton.mp ho ▸ clash?_eq_none_iff.mp h.2.2 entry he⟩
  | _ => exact hb

theorem KeepsApart.matched_once {r : Registry π} {g : Grammar π τ} (h : b.KeepsApart)
    (hτ : Equivalence fun s t : τ => Token.compatible s t = true) (hb : b.build r = .ok g) {x : τ}
    {id id' : Terminal.Id} {t t' : Terminal τ} (ht : g.terminal id = .ok t)
    (ht' : g.terminal id' = .ok t') (hx : t.isMatch x = true) (hx' : t'.isMatch x = true) :
    id = id' := by
  rw [terminal_eq_ok_iff_of_build hb] at ht ht'
  obtain ⟨s, hs, hsx⟩ := (Option.any_eq_true ..).mp hx
  obtain ⟨s', hs', hsx'⟩ := (Option.any_eq_true ..).mp hx'
  have hss' : Token.compatible s s' = true := hτ.trans hsx (hτ.symm hsx')
  have hpairwise := List.pairwise_iff_getElem.mp h
  obtain ⟨hlt, heq⟩ := List.getElem?_eq_some_iff.mp ht
  obtain ⟨hlt', heq'⟩ := List.getElem?_eq_some_iff.mp ht'
  rcases Nat.lt_trichotomy id.index id'.index with hi | hi | hi
  · have hapart := hpairwise _ _ hlt hlt' hi
    rw [heq, heq'] at hapart
    exact absurd hss' (by simp [(hapart s hs s' hs').1])
  · cases id
    cases id'
    exact congrArg _ hi
  · have hapart := hpairwise _ _ hlt' hlt hi
    rw [heq, heq'] at hapart
    exact absurd hss' (by simp [(hapart s' hs' s hs).2])

/-! ### Any sequence of registrations -/

theorem extends_stage (b : Builder τ) (x : Registration τ) : b.Extends (x.stage.runFrom b).2 := by
  by_cases h : b.Accepts x
  · rw [stage_of_accepts h]
    exact b.extends_add x
  · obtain ⟨e, he⟩ := stage_of_not_accepts h
    rw [he]
    exact .refl b

theorem KeepsApart.stage (hb : b.KeepsApart) (x : Registration τ) :
    (x.stage.runFrom b).2.KeepsApart := by
  by_cases h : b.Accepts x
  · rw [stage_of_accepts h]
    exact hb.add h
  · obtain ⟨e, he⟩ := stage_of_not_accepts h
    rw [he]
    exact hb

theorem after_concat (xs : List (Registration τ)) (x : Registration τ) :
    after (xs ++ [x]) = (x.stage.runFrom (after xs)).2 := by
  simp [after]

theorem keepsApart_after (xs : List (Registration τ)) : (after xs).KeepsApart := by
  induction xs using List.reverseRecOn with
  | nil => exact List.pairwise_singleton _ _
  | append_singleton xs x ih =>
    rw [after_concat]
    exact ih.stage x

theorem extends_after (xs ys : List (Registration τ)) : (after xs).Extends (after (xs ++ ys)) := by
  induction ys using List.reverseRecOn with
  | nil =>
    rw [List.append_nil]
    exact .refl _
  | append_singleton ys y ih =>
    rw [← List.append_assoc, after_concat]
    exact ih.trans (extends_stage _ y)

/-- Whatever is registered, and whatever is refused, no name is that of a terminal and of a
nonterminal, the empty string stays the first terminal and the only one without a token, and the
reference tokens are apart. A handle denotes the same symbol ever after, also in the grammar that is
built. So where tokens are compatible if they are of one kind, none matches two terminals. -/
theorem after_keeps_handles (xs : List (Registration τ)) :
    (∀ name, ¬ ((after xs).hasTerminal name = true ∧ (after xs).hasNonTerminal name = true)) ∧
    (∃ rest, (after xs).terminals = (emptyStringName, none) :: rest ∧
      ∀ entry ∈ rest, entry.2 ≠ none) ∧
    (after xs).KeepsApart ∧
    (∀ name token id b, (registerTerminal name token).runFrom (after xs) = (.ok id, b) → ∀ ys,
      (after (xs ++ .terminal name token :: ys)).HasTerminalAt id name token ∧
      ∀ (r : Registry π) g, (after (xs ++ .terminal name token :: ys)).build r = .ok g →
        g.terminal id = .ok ⟨name, some token⟩) ∧
    (∀ name nt b, (registerNonTerminal name).runFrom (after xs) = (.ok nt, b) → ∀ ys,
      (after (xs ++ .nonTerminal name :: ys)).HasNonTerminalAt nt name ∧
      ∀ (r : Registry π) g, (after (xs ++ .nonTerminal name :: ys)).build r = .ok g →
        g.nonTerminalName nt = .ok name) ∧
    (Equivalence (fun s t : τ => Token.compatible s t = true) →
      ∀ (r : Registry π) g, (after xs).build r = .ok g → ∀ x id id' t t',
        g.terminal id = .ok t → g.terminal id' = .ok t' → t.isMatch x = true →
        t'.isMatch x = true → id = id') := by
  have hsound := isSound_after xs
  refine ⟨hsound.disjoint, hsound.terminals, keepsApart_after xs, ?_, ?_, ?_⟩
  · intro name token id b h ys
    have hb : after (xs ++ [.terminal name token]) = b := by
      rw [after_concat, Registration.stage, Attempt.runFrom_bind, h]
      rfl
    have hid : (after (xs ++ .terminal name token :: ys)).HasTerminalAt id name token := by
      rw [List.append_cons]
      exact (hb ▸ hasTerminalAt_of_register h).extend (extends_after _ ys)
    exact ⟨hid, fun r g hg => (terminal_eq_ok_iff_of_build hg).mpr hid⟩
  · intro name nt b h ys
    have hb : after (xs ++ [.nonTerminal name]) = b := by
      rw [after_concat, Registration.stage, Attempt.runFrom_bind, h]
      rfl
    have hnt : (after (xs ++ .nonTerminal name :: ys)).HasNonTerminalAt nt name := by
      rw [List.append_cons]
      exact (hb ▸ hasNonTerminalAt_of_register h).extend (extends_after _ ys)
    exact ⟨hnt, fun r g hg => hnt.of_build hg⟩
  · intro hτ r g hg x id id' t t' ht ht' hx hx'
    exact (keepsApart_after xs).matched_once hτ hg ht ht' hx hx'

theorem equivalence_compatible :
    Equivalence fun s t : GrammarText.Token => Token.compatible s t = true := by
  simp only [Token.compatible, beq_iff_eq]
  exact ⟨fun _ => rfl, Eq.symm, Eq.trans⟩

def intRule : Registration GrammarText.Token := .rule "Start" ["int"] [.constant (.int 0)]

/-- The first of these has the name of a nonterminal, and the second one a token of the same kind
as that of "int". -/
def afterInt : List (Registration GrammarText.Token) :=
  [.terminal "Start" (.reference .dot), .terminal "number" (.reference .int),
    .terminal "dot" (.reference .dot)]

/-- Two terminals are refused, and the one before them keeps its number. -/
theorem after_keeps_handles_int : ∃ g : Grammar Unit GrammarText.Token,
    (after (intRule :: .terminal "int" (.reference .int) :: afterInt)).build ⟨[]⟩ = .ok g ∧
    g.terminal ⟨1⟩ = .ok ⟨"int", some (.reference .int)⟩ ∧
    ∀ x id t, g.terminal id = .ok t → t.isMatch x = true → x.kind = .int → id = ⟨1⟩ := by
  obtain ⟨g, hg⟩ : ∃ g : Grammar Unit GrammarText.Token,
      (after (intRule :: .terminal "int" (.reference .int) :: afterInt)).build ⟨[]⟩ = .ok g :=
    ⟨_, rfl⟩
  obtain ⟨-, -, -, hterminal, -⟩ := after_keeps_handles (π := Unit) [intRule]
  have hint : g.terminal ⟨1⟩ = .ok ⟨"int", some (.reference .int)⟩ :=
    (hterminal "int" (.reference .int) ⟨1⟩ _ rfl afterInt).2 _ _ hg
  refine ⟨g, hg, hint, fun x id t ht hm hx => ?_⟩
  obtain ⟨-, -, -, -, -, honce⟩ := after_keeps_handles (π := Unit)
    (intRule :: .terminal "int" (.reference .int) :: afterInt)
  refine honce equivalence_compatible _ _ hg x id ⟨1⟩ t _ ht hint hm ?_
  simp [Terminal.isMatch, Token.compatible, GrammarText.Token.reference, hx]

end ActionGrammar.Builder
