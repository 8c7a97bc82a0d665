import ActionGrammar.GrammarText.Token
import ActionGrammar.Proofs.Parse.Commitment
import ActionGrammar.Proofs.Parse.Engine

/-! # Soundness of a parse

A parse that succeeds has found a derivation of all tokens. Actions also ran for
trees that were abandoned; where they are functions of the values that they are
run on, this does not show, and the value of the parse is that of the derivation
alone.
-/

namespace ActionGrammar

open Effect Resolved

variable {π τ : Type} [Token τ] [TokenValue π τ]

/-- Asking for the token's value changes no object and yields the same each time, up to a
renaming. -/
structure TokenValue.IsFunction (π : Type) {τ : Type} [TokenValue π τ] [Renameable π]
    (base : Renaming) (x : τ) : Prop where
  keeps : Keeps (Attempt.ofState (value? x) : Effect π EvalError (Option Value))
  follows : ∀ {r : Renaming} {s t : Store π}, base ≤ r → s.Renamed r t →
    Follows (fun r => Option.Rel (Value.Renamed r)) r s t
      (Attempt.ofState (value? x) : Effect π EvalError (Option Value))
      (Attempt.ofState (value? x))

namespace Grammar

structure IsFunctional [Renameable π] (g : Grammar π τ) (tokens : List τ) (base : Renaming) :
    Prop where
  actions : ∀ {nt k r}, g.rule? nt k = some r → ∀ e ∈ r.action, e.IsFunction base
  payloads : ∀ x ∈ tokens, TokenValue.IsFunction π base x

variable {g : Grammar π τ} {tokens : List τ} {ss : List Symbol} {f : Forest τ}
  {vs : List Value} {s t : Store π}

theorem Evaluates.isNull_eq (h : g.Evaluates tokens ss s f vs t) :
    ∀ nt ss' v vs', ss = .nonTerminal nt :: ss' → vs = v :: vs' → v.isNull = false := by
  induction h with
  | nil => rintro _ _ _ _ ⟨⟩
  | empty => rintro _ _ _ _ ⟨⟩
  | token => rintro _ _ _ _ ⟨⟩
  | node _ _ hv =>
    rintro _ _ _ _ - ⟨⟩
    exact isNull_of_evalAction hv
  | abandon _ _ _ ih => exact ih

variable [Renameable π] {base : Renaming}

theorem IsFunctional.keeps (hg : g.IsFunctional tokens base) : g.Keeps tokens := by
  intro ss f vs s t h
  induction h with
  | nil => exact Store.le_refl _
  | empty _ ih => exact ih
  | @token _ x v _ _ _ s s' _ hx _ hv _ ih =>
    refine Store.le_trans ((hg.payloads x hx).keeps s v s' ?_) ih
    rw [Attempt.runFrom_ofState, hv]
  | node hr _ hv _ ih ih' =>
    have hact := keeps_evalAction (hg.actions hr) _ _ _ hv
    exact Store.le_trans ih (Store.le_trans hact ih')
  | abandon _ _ ih ih' => exact Store.le_trans ih ih'

omit [Token τ] in
theorem IsFunctional.isEquivariant (hg : g.IsFunctional tokens base) :
    g.IsEquivariant tokens base where
  actions hr e he := (hg.actions hr e he).isEquivariant
  payloads x hx := (hg.payloads x hx).follows

/-- Abandoned trees do not show in the values. -/
theorem Evaluates.follows (hg : g.IsFunctional tokens base) (h : g.Evaluates tokens ss s f vs t)
    {r : Renaming} {u : Store π} (hb : base ≤ r) (hsu : s.Renamed r u) :
    ∃ ws u' r', (f.values g).runFrom u = (.ok ws, u') ∧ r ≤ r' ∧ t.Renamed r' u' ∧
      AllRenamed r' vs ws :=
  (h.commits hg.keeps).follows hg.isEquivariant hb hsu

end Grammar

namespace Parser

variable [Renameable π] {p : Parser π τ} {tokens : Array τ} {s t : Store π} {v : Value}

/-- A parse that succeeds has found a derivation of all tokens, and its value is not null. If all
callables are functions, its value is that of the derivation, up to a renaming of new objects. -/
theorem parse_sound (h : (p.parse tokens).runFrom s = (.ok v, t)) :
    v.isNull = false ∧ ∃ f : Forest τ,
      p.grammar.Derives [.nonTerminal p.grammar.start] f ∧ f.yield = tokens.toList ∧
      (p.grammar.IsFunctional tokens.toList s.identity → s.IsClosed →
        ∃ w t' r, (f.values p.grammar).runFrom s = (.ok [w], t') ∧ s.identity ≤ r ∧
          t.Renamed r t' ∧ v.Renamed r w) := by
  obtain ⟨f, hf, hv⟩ := parse_ok h
  obtain ⟨hd, hy, hlen⟩ := hf.derives _ _ rfl
  refine ⟨hv.isNull_eq _ _ _ _ rfl rfl, f, hd, hy.eq_of_length (by simpa using hlen.symm),
    fun hg hs => ?_⟩
  obtain ⟨ws, t', r, hws, hr, ht, hvw⟩ := hv.follows hg s.identity.le_refl hs.renamed
  cases hvw with
  | cons hvw hnil =>
    cases hnil
    exact ⟨_, t', r, hws, hr, ht, hvw⟩

instance : Renameable (List Value) where
  Agree r := AllRenamed r
  mono hr h := h.mono hr

def listOf : MethodGroup (List Value) where
  name := "List"
  receiver := none
  overloads :=
    [⟨[], .static fun args => Attempt.ofState (Store.alloc ⟨"list"⟩ args)⟩,
      ⟨[.any, .any], .static fun args => Attempt.ofState (Store.alloc ⟨"list"⟩ args)⟩]

theorem listOf_isFunction (base : Renaming) : ∀ o ∈ listOf.overloads, o.IsFunction base := by
  have h (params : List ValueKind) : Overload.IsFunction base
      ⟨params, .static fun args => Attempt.ofState (Store.alloc ⟨"list"⟩ args)⟩ := by
    constructor
    · rintro (_ | this) args s v t h
      · cases h
        exact Store.le_push s args
      · cases h
    · intro r s t receiver receiver' args args' _ hst hr ha v s' h
      cases hr with
      | none =>
        cases h
        exact ⟨_, _, _, rfl, r.le_insert _ _, hst.push ha, .object (.inr ⟨rfl, rfl⟩)⟩
      | some => cases h
  simp [listOf, h]

/-- Lists of integers, with one rule that fails behind a list. -/
def lists : Parser (List Value) GrammarText.Token where
  grammar :=
    { terminals := #[⟨emptyStringName, none⟩, ⟨"int", some (.reference .int)⟩,
        ⟨"dot", some (.reference .dot)⟩]
      nonTerminals := #[⟨"Ints",
        [⟨[.terminal ⟨1⟩, .nonTerminal ⟨0⟩, .terminal ⟨2⟩], [.result 1]⟩,
          ⟨[.terminal ⟨1⟩, .nonTerminal ⟨0⟩], [.construct listOf [.result 0, .result 1]]⟩,
          ⟨[.terminal ⟨0⟩], [.construct listOf []]⟩]⟩]
      start := ⟨0⟩ }
  limits := .standard
  isChecked := by cbv

theorem lists_isFunctional (tokens : List GrammarText.Token) (base : Renaming) :
    lists.grammar.IsFunctional tokens base := by
  constructor
  · intro nt k r hr e he
    obtain ⟨set, hset, hk⟩ := Grammar.rule?_eq_some_iff.mp hr
    have h : ∀ set ∈ lists.grammar.nonTerminals, ∀ r ∈ set.rules, ∀ e ∈ r.action,
        (∀ g ∈ e.callee?, g = listOf) ∧ ∀ e' ∈ e.parts, e'.callee? = none ∧ e'.parts = [] := by
      simp [lists, Expr.callee?, Expr.parts]
    obtain ⟨hg, hparts⟩ := h set (Array.mem_of_getElem? hset) r (List.mem_of_getElem? hk) e he
    refine isFunction_of_callee? (fun e' he' => ?_) fun g h => hg g h ▸ listOf_isFunction base
    refine isFunction_of_callee? ?_ ?_ <;> simp [hparts e' he']
  · intro x _
    constructor
    · rintro s _ _ ⟨⟩
      exact Store.le_refl s
    · rintro r s t - hst _ _ ⟨⟩
      refine ⟨_, t, r, rfl, r.le_refl, hst, ?_⟩
      cases x.payload with
      | none => exact .none
      | some l => exact .some (.plain (by cases l <;> rfl))

/-- The list that is abandoned is the first object of a parse, but not part of its value. -/
theorem parse_sound_lists :
    ∃ (v w : Value) (t t' : Store (List Value)) (f : Forest GrammarText.Token) (r : Renaming),
      (lists.parse #[⟨.int, 0, 1, some (.int 1)⟩]).runFrom ⟨#[]⟩ = (.ok v, t) ∧
      t.cells.size = 3 ∧ (f.values lists.grammar).runFrom ⟨#[]⟩ = (.ok [w], t') ∧
      t.Renamed r t' ∧ v.Renamed r w := by
  have h : (lists.parse #[⟨.int, 0, 1, some (.int 1)⟩]).runFrom ⟨#[]⟩ =
      (.ok (.object ⟨2, ⟨"list"⟩⟩), ⟨#[[], [], [.int 1, .object ⟨1, ⟨"list"⟩⟩]]⟩) := by
    cbv
  obtain ⟨-, f, -, -, hf⟩ := parse_sound h
  obtain ⟨w, t', r, hw, -, ht, hv⟩ := hf (lists_isFunctional _ _) (fun i p hp => by simp at hp)
  exact ⟨_, w, _, t', f, r, h, rfl, hw, ht, hv⟩

end Parser

end ActionGrammar
