import ActionGrammar.Proofs.Expr.Purity
import ActionGrammar.Proofs.Parse.Evaluation

/-! # Commitment

What is abandoned does not show if it leaves all objects as they are: only the
trees that are kept are committed then. Trees that are committed twice, from
stores that are the same up to a renaming, yield the same up to a renaming, and
so does evaluating them alone.
-/

namespace ActionGrammar

open Effect Resolved

variable {π τ : Type} [TokenValue π τ]

/-- Asking for the token's value yields the same each time, up to a renaming. -/
def TokenValue.IsEquivariant (π : Type) {τ : Type} [TokenValue π τ] [Renameable π]
    (base : Renaming) (x : τ) : Prop :=
  ∀ {r : Renaming} {s t : Store π}, base ≤ r → s.Renamed r t →
    Follows (fun r => Option.Rel (Value.Renamed r)) r s t
      (Attempt.ofState (value? x) : Effect π EvalError (Option Value))
      (Attempt.ofState (value? x))

/-- From one store to the other, the trees are evaluated to the values. Before, between and behind
them, all objects are left as they are. -/
inductive Forest.Commits (g : Grammar π τ) (tokens : List τ) :
    Forest τ → Store π → List Value → Store π → Prop
  | nil {s t : Store π} : s ≤ t → Commits g tokens .nil s [] t
  | empty {f : Forest τ} {vs : List Value} {s t : Store π} : Commits g tokens f s vs t →
      Commits g tokens (.empty f) s (.null :: vs) t
  | token {id : Terminal.Id} {x : τ} {v : Option Value} {f : Forest τ} {vs : List Value}
      {s s' s'' t : Store π} : x ∈ tokens → s ≤ s' → TokenValue.value? x s' = (v, s'') →
      Commits g tokens f s'' vs t → Commits g tokens (.token id x f) s (v.getD .null :: vs) t
  | node {nt : NonTerminal} {k : Nat} {results : List Value} {v : Value} {c f : Forest τ}
      {vs : List Value} {s s' s'' t : Store π} : Commits g tokens c s results s' →
      (g.nodeValue nt k results).runFrom s' = (.ok v, s'') → Commits g tokens f s'' vs t →
      Commits g tokens (.node nt k c f) s (v :: vs) t

namespace Forest

variable {g : Grammar π τ} {tokens : List τ} {f : Forest τ} {vs : List Value} {s s' t : Store π}

theorem Commits.of_le (h : f.Commits g tokens s' vs t) (hs : s ≤ s') :
    f.Commits g tokens s vs t := by
  induction h generalizing s with
  | nil h => exact .nil (Store.le_trans hs h)
  | empty _ ih => exact .empty (ih hs)
  | token hx h hv hf _ => exact .token hx (Store.le_trans hs h) hv hf
  | node _ hv hf ih _ => exact .node (ih hs) hv hf

end Forest

theorem Rule.inputs_renamed [Renameable π] {ρ : Renaming} {results results' : List Value}
    (r : Rule π) (h : AllRenamed ρ results results') :
    AllRenamed ρ (r.inputs results) (r.inputs results') := by
  unfold Rule.inputs
  split
  · exact .nil
  · exact h

namespace Grammar

structure IsEquivariant [Renameable π] (g : Grammar π τ) (tokens : List τ) (base : Renaming) :
    Prop where
  actions : ∀ {nt k r}, g.rule? nt k = some r → ∀ e ∈ r.action, e.IsEquivariant base
  payloads : ∀ x ∈ tokens, TokenValue.IsEquivariant π base x

variable [Renameable π] {base r : Renaming} {g : Grammar π τ} {tokens : List τ} {nt : NonTerminal}
  {k : Nat} {results results' : List Value} {s t : Store π}

theorem follows_nodeValue (hg : g.IsEquivariant tokens base) (hb : base ≤ r) (hst : s.Renamed r t)
    (hr : AllRenamed r results results') :
    Follows Value.Renamed r s t (g.nodeValue nt k results) (g.nodeValue nt k results') := by
  cases hk : g.rule? nt k with
  | none =>
    rw [nodeValue, nodeValue, hk]
    exact .pure hst (.plain rfl)
  | some rule =>
    rw [nodeValue_eq hk, nodeValue_eq hk]
    exact follows_evalAction (hg.actions hk) hb hst (rule.inputs_renamed hr)

end Grammar

namespace Forest

variable [Renameable π] {base : Renaming} {g : Grammar π τ} {tokens : List τ} {f : Forest τ}
  {vs : List Value} {s t : Store π}

theorem Commits.follows (hg : g.IsEquivariant tokens base) (h : f.Commits g tokens s vs t) :
    ∀ {r : Renaming} {u : Store π}, base ≤ r → s.Renamed r u →
      ∃ ws u' r', (f.values g).runFrom u = (.ok ws, u') ∧ r ≤ r' ∧ t.Renamed r' u' ∧
        AllRenamed r' vs ws := by
  induction h with
  | nil hs =>
    intro r u _ hsu
    exact ⟨[], u, r, rfl, r.le_refl, hsu.of_le hs, .nil⟩
  | empty _ ih =>
    intro r u hb hsu
    obtain ⟨ws, u', r', hws, hr, htu, hvs⟩ := ih hb hsu
    refine ⟨.null :: ws, u', r', ?_, hr, htu, .cons (.plain rfl) hvs⟩
    exact Attempt.runFrom_bind_eq_ok_iff.mpr ⟨ws, u', hws, rfl⟩
  | token hx hs hv _ ih =>
    intro r u hb hsu
    obtain ⟨w, u₁, r', hw, hr, hsu', hvw⟩ := hg.payloads _ hx hb (hsu.of_le hs) _ _
      (by rw [Attempt.runFrom_ofState, hv])
    obtain ⟨ws, u', r'', hws, hr', htu, hvs⟩ := ih (Renaming.le_trans hb hr) hsu'
    refine ⟨w.getD .null :: ws, u', r'', ?_, Renaming.le_trans hr hr', htu,
      .cons ((Value.renamed_getD hvw).mono hr') hvs⟩
    refine Attempt.runFrom_bind_eq_ok_iff.mpr ⟨w, u₁, hw, ?_⟩
    exact Attempt.runFrom_bind_eq_ok_iff.mpr ⟨ws, u', hws, rfl⟩
  | node _ hv _ ih ih' =>
    intro r u hb hsu
    obtain ⟨results, u₁, r₁, hres, hr₁, hsu₁, hrel⟩ := ih hb hsu
    have hb₁ := Renaming.le_trans hb hr₁
    obtain ⟨w, u₂, r₂, hw, hr₂, hsu₂, hvw⟩ := Grammar.follows_nodeValue hg hb₁ hsu₁ hrel _ _ hv
    obtain ⟨ws, u₃, r₃, hws, hr₃, htu, hvs⟩ := ih' (Renaming.le_trans hb₁ hr₂) hsu₂
    refine ⟨w :: ws, u₃, r₃, ?_, Renaming.le_trans hr₁ (Renaming.le_trans hr₂ hr₃), htu,
      .cons (hvw.mono hr₃) hvs⟩
    refine Attempt.runFrom_bind_eq_ok_iff.mpr ⟨results, u₁, hres, ?_⟩
    refine Attempt.runFrom_bind_eq_ok_iff.mpr ⟨w, u₂, hw, ?_⟩
    exact Attempt.runFrom_bind_eq_ok_iff.mpr ⟨ws, u₃, hws, rfl⟩

theorem Commits.agree (hg : g.IsEquivariant tokens base) (h : f.Commits g tokens s vs t) :
    ∀ {r : Renaming} {ws : List Value} {u u' : Store π}, base ≤ r → s.Renamed r u →
      f.Commits g tokens u ws u' → ∃ r', r ≤ r' ∧ t.Renamed r' u' ∧ AllRenamed r' vs ws := by
  induction h with
  | nil hs =>
    intro r ws u u' _ hsu h'
    cases h' with
    | nil hu => exact ⟨r, r.le_refl, (hsu.of_le hs).of_le_right hu, .nil⟩
  | empty _ ih =>
    intro r ws u u' hb hsu h'
    cases h' with
    | empty h' =>
      obtain ⟨r', hr, htu, hvs⟩ := ih hb hsu h'
      exact ⟨r', hr, htu, .cons (.plain rfl) hvs⟩
  | token hx hs hv _ ih =>
    intro r ws u u' hb hsu h'
    cases h' with
    | token _ hu hw h' =>
      obtain ⟨r', hr, hsu', hvw⟩ :=
        (hg.payloads _ hx hb ((hsu.of_le hs).of_le_right hu)).agree
          (by rw [Attempt.runFrom_ofState, hv]) (by rw [Attempt.runFrom_ofState, hw])
      obtain ⟨r'', hr', htu, hvs⟩ := ih (Renaming.le_trans hb hr) hsu' h'
      exact ⟨r'', Renaming.le_trans hr hr', htu, .cons ((Value.renamed_getD hvw).mono hr') hvs⟩
  | node _ hv _ ih ih' =>
    intro r ws u u' hb hsu h'
    cases h' with
    | node hc' hw hf' =>
      obtain ⟨r₁, hr₁, hsu₁, hrel⟩ := ih hb hsu hc'
      have hb₁ := Renaming.le_trans hb hr₁
      obtain ⟨r₂, hr₂, hsu₂, hvw⟩ := (Grammar.follows_nodeValue hg hb₁ hsu₁ hrel).agree hv hw
      obtain ⟨r₃, hr₃, htu, hvs⟩ := ih' (Renaming.le_trans hb₁ hr₂) hsu₂ hf'
      exact ⟨r₃, Renaming.le_trans hr₁ (Renaming.le_trans hr₂ hr₃), htu,
        .cons (hvw.mono hr₃) hvs⟩

end Forest

namespace Grammar

variable [Token τ] {g : Grammar π τ} {tokens : List τ} {ss : List Symbol} {f : Forest τ}
  {vs : List Value} {s t : Store π}

/-- The evaluation of trees changes no object that is there before. -/
def Keeps (g : Grammar π τ) (tokens : List τ) : Prop :=
  ∀ {ss : List Symbol} {f : Forest τ} {vs : List Value} {s t : Store π},
    g.Evaluates tokens ss s f vs t → s ≤ t

/-- Abandoned trees that change no object do not prevent a commitment. -/
theorem Evaluates.commits (hk : g.Keeps tokens) (h : g.Evaluates tokens ss s f vs t) :
    f.Commits g tokens s vs t := by
  induction h with
  | nil => exact .nil (Store.le_refl _)
  | empty _ ih => exact .empty ih
  | token hx _ hv _ ih => exact .token hx (Store.le_refl _) hv ih
  | node hr _ hv _ ihc ih => exact .node ihc (by rwa [nodeValue_eq hr]) ih
  | abandon ha _ _ ih => exact ih.of_le (hk ha)

end Grammar

end ActionGrammar
