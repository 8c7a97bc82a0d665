import ActionGrammar.Proofs.Grammar.Lookahead

/-! # Tables of lookahead sets

The lookahead sets are the least ones closed under the rules, so they are
contained in every table that is closed. A finite check of the table and of all
pairs of rules then decides that a grammar is LL(1).
-/

namespace ActionGrammar

/-- Nonterminals that can be empty, and the terminals in and behind each nonterminal. -/
structure LookaheadTable where
  nullable : NonTerminal → Bool
  first : NonTerminal → List Terminal.Id
  follow : NonTerminal → List Terminal.Id

namespace LookaheadTable

variable (t : LookaheadTable)

def nullableAt : Symbol → Bool
  | .terminal id => id == ⟨0⟩
  | .nonTerminal nt => t.nullable nt

def nullableAll (ss : List Symbol) : Bool := ss.all t.nullableAt

def firstAt : Symbol → List Terminal.Id
  | .terminal id => if id = ⟨0⟩ then [] else [id]
  | .nonTerminal nt => t.first nt

def firstAll : List Symbol → List Terminal.Id
  | [] => []
  | s :: ss => t.firstAt s ++ if t.nullableAt s then firstAll ss else []

/-- Where `C` may stand behind the symbols, the table has what may stand behind each of them. -/
def Places (C : List Terminal.Id) : List Symbol → Prop
  | [] => True
  | .terminal _ :: ss => Places C ss
  | .nonTerminal nt :: ss =>
    ((∀ a ∈ t.firstAll ss, a ∈ t.follow nt) ∧
      (t.nullableAll ss = true → ∀ a ∈ C, a ∈ t.follow nt)) ∧ Places C ss

instance decidablePlaces (C : List Terminal.Id) :
    (ss : List Symbol) → Decidable (t.Places C ss)
  | [] => .isTrue trivial
  | .terminal _ :: ss => decidablePlaces C ss
  | .nonTerminal _ :: ss => @instDecidableAnd _ _ inferInstance (decidablePlaces C ss)

variable {π τ : Type}

/-- The rule adds nothing to the table. -/
structure Covers (nt : NonTerminal) (r : Rule π) : Prop where
  nullable : t.nullableAll r.symbols = true → t.nullable nt = true
  first : ∀ a ∈ t.firstAll r.symbols, a ∈ t.first nt
  follow : t.Places (t.follow nt) r.symbols

structure Separates (nt : NonTerminal) (r r' : Rule π) : Prop where
  first : ∀ a ∈ t.firstAll r.symbols, a ∉ t.firstAll r'.symbols
  nullable : ¬ (t.nullableAll r.symbols = true ∧ t.nullableAll r'.symbols = true)
  follow : t.nullableAll r.symbols = true → ∀ a ∈ t.firstAll r'.symbols, a ∉ t.follow nt

instance (nt : NonTerminal) (r : Rule π) : Decidable (t.Covers nt r) :=
  decidable_of_iff (_ ∧ _ ∧ _) ⟨fun ⟨h, h', h''⟩ => ⟨h, h', h''⟩, fun ⟨h, h', h''⟩ => ⟨h, h', h''⟩⟩

instance (nt : NonTerminal) (r r' : Rule π) : Decidable (t.Separates nt r r') :=
  decidable_of_iff (_ ∧ _ ∧ _) ⟨fun ⟨h, h', h''⟩ => ⟨h, h', h''⟩, fun ⟨h, h', h''⟩ => ⟨h, h', h''⟩⟩

/-- The table is closed under the rules of the grammar and tells them apart. -/
def Decides (g : Grammar π τ) : Prop :=
  ∀ i ∈ List.range g.nonTerminals.size, ∀ set ∈ g.nonTerminals[i]?,
    (∀ r ∈ set.rules, t.Covers ⟨i⟩ r) ∧
    set.rules.Pairwise fun r r' => t.Separates ⟨i⟩ r r' ∧ t.Separates ⟨i⟩ r' r

instance (g : Grammar π τ) : Decidable (t.Decides g) :=
  inferInstanceAs (Decidable (∀ _ ∈ List.range _, ∀ _ ∈ _, _))

/-- By the table, a rule beside others derives the empty string only if it is the empty string
alone. -/
def EmptiesAlone (g : Grammar π τ) : Prop :=
  ∀ set ∈ g.nonTerminals.toList, set.rules.length ≤ 1 ∨
    ∀ r ∈ set.rules, t.nullableAll r.symbols = true → r.isEpsilon = true

instance (g : Grammar π τ) : Decidable (t.EmptiesAlone g) :=
  inferInstanceAs (Decidable (∀ _ ∈ _, _))

variable {t} {g : Grammar π τ} {nt : NonTerminal} {r r' : Rule π} {k k' : Nat}
  {ss : List Symbol} {a : Terminal.Id}

theorem Decides.covers (h : t.Decides g) (hr : g.rule? nt k = some r) : t.Covers nt r := by
  obtain ⟨set, hset, hk⟩ := Grammar.rule?_eq_some_iff.mp hr
  obtain ⟨hi, -⟩ := Array.getElem?_eq_some_iff.mp hset
  exact (h _ (List.mem_range.mpr hi) set hset).1 r (List.mem_of_getElem? hk)

theorem Decides.separates (h : t.Decides g) (hr : g.rule? nt k = some r)
    (hr' : g.rule? nt k' = some r') (hk : k ≠ k') : t.Separates nt r r' := by
  obtain ⟨set, hset, hget⟩ := Grammar.rule?_eq_some_iff.mp hr
  obtain ⟨set', hset', hget'⟩ := Grammar.rule?_eq_some_iff.mp hr'
  obtain rfl := Option.some.inj (hset.symm.trans hset')
  obtain ⟨hi, -⟩ := Array.getElem?_eq_some_iff.mp hset
  have hall := List.pairwise_iff_getElem.mp (h _ (List.mem_range.mpr hi) set hset).2
  obtain ⟨hlt, rfl⟩ := List.getElem?_eq_some_iff.mp hget
  obtain ⟨hlt', rfl⟩ := List.getElem?_eq_some_iff.mp hget'
  rcases Nat.lt_or_gt_of_ne hk with hk | hk
  · exact (hall k k' hlt hlt' hk).1
  · exact (hall k' k hlt' hlt hk).2

theorem Decides.nullable (h : t.Decides g) (hn : g.Nullable ss) : t.nullableAll ss = true := by
  induction hn with
  | nil => rfl
  | empty _ ih => exact Bool.and_eq_true_iff.mpr ⟨rfl, ih⟩
  | node hr _ _ ih ih' => exact Bool.and_eq_true_iff.mpr ⟨(h.covers hr).nullable ih, ih'⟩

theorem Decides.first (h : t.Decides g) (hf : g.First ss a) : a ∈ t.firstAll ss := by
  induction hf with
  | terminal hid => simp [firstAll, firstAt, hid]
  | node hr _ ih => exact List.mem_append_left _ ((h.covers hr).first _ ih)
  | skip hn _ ih =>
    have hn := h.nullable hn
    rw [nullableAll, List.all_cons, List.all_nil, Bool.and_true] at hn
    rw [firstAll, if_pos hn]
    exact List.mem_append_right _ ih

theorem Places.of_append {C : List Terminal.Id} {α β : List Symbol}
    (h : t.Places C (α ++ .nonTerminal nt :: β)) :
    (∀ a ∈ t.firstAll β, a ∈ t.follow nt) ∧
      (t.nullableAll β = true → ∀ a ∈ C, a ∈ t.follow nt) := by
  induction α with
  | nil => exact h.1
  | cons s α ih =>
    cases s with
    | terminal => exact ih h
    | nonTerminal => exact ih h.2

theorem Decides.follow (h : t.Decides g) {o : Option Terminal.Id} (hf : g.Follow nt o) :
    ∀ a ∈ o, a ∈ t.follow nt := by
  induction hf with
  | finish => simp
  | next _ hr hs ha =>
    rintro a ⟨⟩
    have hp := (h.covers hr).follow
    rw [hs] at hp
    exact hp.of_append.1 _ (h.first ha)
  | last _ hr hs hn ih =>
    have hp := (h.covers hr).follow
    rw [hs] at hp
    exact fun a ha => hp.of_append.2 (h.nullable hn) a (ih a ha)

theorem Decides.isLL1 (h : t.Decides g) : g.IsLL1 where
  first_disjoint hr hr' ha ha' := Decidable.byContradiction fun hk =>
    (h.separates hr hr' hk).first _ (h.first ha) (h.first ha')
  nullable_unique hr hr' hn hn' := Decidable.byContradiction fun hk =>
    (h.separates hr hr' hk).nullable ⟨h.nullable hn, h.nullable hn'⟩
  first_not_follow hr hr' hk hn ha hf :=
    (h.separates hr hr' hk).follow (h.nullable hn) _ (h.first ha) (h.follow hf _ rfl)

theorem Decides.nullableIsEpsilon (h : t.Decides g) (hε : t.EmptiesAlone g) :
    g.NullableIsEpsilon := by
  intro nt k k' r r' hr hr' hk hn
  obtain ⟨set, hset, hget⟩ := Grammar.rule?_eq_some_iff.mp hr
  obtain ⟨set', hset', hget'⟩ := Grammar.rule?_eq_some_iff.mp hr'
  obtain rfl := Option.some.inj (hset.symm.trans hset')
  rcases hε set (Array.mem_toList_iff.mpr (Array.mem_of_getElem? hset)) with hone | hall
  · have := (List.getElem?_eq_some_iff.mp hget).1
    have := (List.getElem?_eq_some_iff.mp hget').1
    omega
  · exact hall r (List.mem_of_getElem? hget) (h.nullable hn)

end LookaheadTable

end ActionGrammar
