import ActionGrammar.Proofs.Parse.Calls
import ActionGrammar.Proofs.Parse.Recording

/-! # Traversals of derivations

What a replay keeps of the events of a parse is the traversal of a derivation
from left to right: a nonterminal is entered, its rule is attempted, its
children are traversed, and then the rule is reduced and the nonterminal left.
All attempts that fail are forgotten.
-/

namespace ActionGrammar

variable {π τ : Type}

namespace Forest

variable {f f' : Forest τ} {i : Nat} {es es' : List Event}

/-- The events of a walk through the trees, from left to right, where the first token has the
position. The values of reductions are left open. A node for the empty string alone is reduced
without an attempt. -/
inductive Traversal : Forest τ → Nat → List Event → Prop
  | nil {i : Nat} : Traversal .nil i []
  | empty {f : Forest τ} {i : Nat} {es : List Event} : Traversal f i es → Traversal (.empty f) i es
  | token {id : Terminal.Id} {x : τ} {f : Forest τ} {i : Nat} {es : List Event} :
      Traversal f (i + 1) es → Traversal (.token id x f) i (.shift id i :: es)
  | node {nt : NonTerminal} {k : Nat} {c f : Forest τ} {i : Nat} {v : Value}
      {es es' : List Event} : c ≠ .empty .nil → Traversal c i es →
      Traversal f (i + c.yield.length) es' →
      Traversal (.node nt k c f) i (.enter nt i :: .attempt nt k i ::
        (es ++ .reduce nt k v :: .exit nt true (i + c.yield.length) :: es'))
  | epsilon {nt : NonTerminal} {k : Nat} {f : Forest τ} {i : Nat} {v : Value} {es : List Event} :
      Traversal f i es → Traversal (.node nt k (.empty .nil) f) i
        (.enter nt i :: .reduce nt k v :: .exit nt true i :: es)

theorem Traversal.append (h : f.Traversal i es) (h' : f'.Traversal (i + f.yield.length) es') :
    (f.append f').Traversal i (es ++ es') := by
  induction h with
  | nil => exact h'
  | empty _ ih => exact .empty (ih h')
  | token _ ih =>
    refine .token (ih ?_)
    rwa [Nat.add_assoc, Nat.add_comm 1]
  | node hc hbody _ _ ih =>
    have hrest := ih (by rwa [Nat.add_assoc, ← List.length_append])
    simpa [Forest.append] using Traversal.node hc hbody hrest
  | epsilon _ ih => exact .epsilon (ih h')

def postorder : Forest τ → List (NonTerminal × Nat)
  | nil => []
  | empty rest => rest.postorder
  | token _ _ rest => rest.postorder
  | node nt k children rest => children.postorder ++ (nt, k) :: rest.postorder

end Forest

namespace Event

def shift? : Event → Option Nat
  | .shift _ i => some i
  | _ => none

def reduced? : Event → Option (NonTerminal × Nat)
  | .reduce nt k _ => some (nt, k)
  | _ => none

def value? : Event → Option Value
  | .reduce _ _ v => some v
  | _ => none

end Event

namespace Forest.Traversal

variable {f : Forest τ} {i : Nat} {es : List Event}

theorem shifts (h : f.Traversal i es) :
    es.filterMap Event.shift? = List.range' i f.yield.length := by
  induction h with
  | nil => rfl
  | empty _ ih => exact ih
  | token _ ih => simp [Event.shift?, ih, yield, List.range'_succ]
  | node _ _ _ ih ih' =>
    simp [List.filterMap_cons, Event.shift?, ih, ih', yield, List.range'_append_1]
  | epsilon _ ih => simpa [List.filterMap_cons, Event.shift?, yield] using ih

theorem reductions (h : f.Traversal i es) : es.filterMap Event.reduced? = f.postorder := by
  induction h with
  | nil => rfl
  | empty _ ih => exact ih
  | token _ ih => exact ih
  | node _ _ _ ih ih' => simp [List.filterMap_cons, Event.reduced?, ih, ih', postorder]
  | epsilon _ ih => simp [List.filterMap_cons, Event.reduced?, ih, postorder]

end Forest.Traversal

namespace Grammar

variable [Token τ] {g : Grammar π τ} {tokens : List τ} {i j : Nat} {es es' : List Event}

/-- The events are the traversal of a derivation of the symbols, which yields the tokens from one
position to the other. -/
structure Tours (g : Grammar π τ) (tokens : List τ) (ss : List Symbol) (i j : Nat)
    (f : Forest τ) (es : List Event) : Prop where
  derives : g.Derives ss f
  yield : f.yield <+: tokens.drop i
  stop : j = i + f.yield.length
  traversal : f.Traversal i es

namespace Tours

variable {ss : List Symbol} {s : Symbol} {f f' c : Forest τ} {nt : NonTerminal} {k m : Nat}
  {r : Rule π} {v : Value}

theorem nil : g.Tours tokens [] i i .nil [] := ⟨.nil, List.nil_prefix, rfl, .nil⟩

theorem empty : g.Tours tokens [.terminal ⟨0⟩] i i (.empty .nil) [] :=
  ⟨.empty .nil, List.nil_prefix, rfl, .empty .nil⟩

theorem shift {id : Terminal.Id} {x : τ} (hx : tokens[i]? = some x) (hm : g.Matches id x) :
    g.Tours tokens [.terminal id] i (i + 1) (.token id x .nil) [.shift id i] :=
  ⟨.token hm .nil, cons_prefix_drop_iff.mpr ⟨hx, List.nil_prefix⟩, rfl, .token .nil⟩

theorem le (h : g.Tours tokens ss i j f es) : i ≤ j := h.stop ▸ Nat.le_add_right _ _

theorem append (h : g.Tours tokens [s] i j f es) (h' : g.Tours tokens ss j m f' es') :
    g.Tours tokens (s :: ss) i m (f.append f') (es ++ es') := by
  obtain ⟨hd, hy, rfl, ht⟩ := h
  obtain ⟨hd', hy', rfl, ht'⟩ := h'
  refine ⟨hd.append hd', ?_, ?_, ht.append ht'⟩
  · rw [Forest.yield_append, append_prefix_drop_iff]
    exact ⟨hy, hy'⟩
  · rw [Forest.yield_append, List.length_append, Nat.add_assoc]

theorem node (hr : g.rule? nt k = some r) (he : r.isEpsilon = false)
    (h : g.Tours tokens r.symbols i j c es) :
    g.Tours tokens [.nonTerminal nt] i j (.node nt k c .nil)
      (.enter nt i :: .attempt nt k i :: (es ++ [.reduce nt k v, .exit nt true j])) := by
  obtain ⟨hd, hy, rfl, ht⟩ := h
  have hne : c ≠ .empty .nil := by
    rintro rfl
    exact absurd hd.isEpsilon (by simp [he])
  refine ⟨.node hr hd .nil, by simpa [Forest.yield] using hy, by simp [Forest.yield], ?_⟩
  exact .node hne ht .nil

theorem epsilon (hr : g.rule? nt k = some r) (he : r.isEpsilon = true) :
    g.Tours tokens [.nonTerminal nt] i i (.node nt k (.empty .nil) .nil)
      [.enter nt i, .reduce nt k v, .exit nt true i] := by
  have hd : g.Derives r.symbols (.empty .nil : Forest τ) := by
    rw [symbols_of_isEpsilon he]
    exact .empty .nil
  exact ⟨.node hr hd .nil, List.nil_prefix, rfl, .epsilon .nil⟩

end Tours

def Awaits (p : Replay) (i : Nat) : Task π → Prop
  | .rules nt _ => p.IsInExpansion nt i
  | _ => p.IsInRule

/-- What is kept of the events of a task. Of rules, only the attempt that ends in a reduction is
kept, if there is one. -/
def Remains (g : Grammar π τ) (tokens : List τ) (i : Nat) :
    Task π → Option Nat → List Event → Prop
  | .symbol s, o, kept => ∀ j ∈ o, ∃ f, g.Tours tokens [s] i j f kept
  | .symbols ss, o, kept => ∀ j ∈ o, ∃ f, g.Tours tokens ss i j f kept
  | .rules _ _, none, kept => kept = []
  | .rules nt rs, some j, kept => ∃ k r f es v, (k, r) ∈ rs ∧ r.isEpsilon = false ∧
      g.Tours tokens r.symbols i j f es ∧ kept = .attempt nt k i :: (es ++ [.reduce nt k v])

variable {task : Task π} {o : Option Nat} {p : Replay}

theorem Remains.cons {nt : NonTerminal} {kr : Nat × Rule π} {rest : List (Nat × Rule π)}
    {kept : List Event} (h : g.Remains tokens i (.rules nt rest) o kept) :
    g.Remains tokens i (.rules nt (kr :: rest)) o kept := by
  cases o with
  | none => exact h
  | some j =>
    obtain ⟨k, r, f, es, v, hmem, h⟩ := h
    exact ⟨k, r, f, es, v, List.mem_cons_of_mem _ hmem, h⟩

theorem Remains.conclude {nt : NonTerminal} {rules : List (Rule π)} {o' : Option Nat}
    {kept : List Event} (hrules : g.rules nt = .ok rules)
    (h : g.Remains tokens i (.rules nt ((List.range rules.length).zip rules)) o kept)
    (hc : Event.Concludes nt i ((List.range rules.length).zip rules) o o' es') :
    ∃ kept', g.Remains tokens i (.symbol (.nonTerminal nt)) o' kept' ∧ ∀ p : Replay,
      ((p.enter (.expansion nt i) (.enter nt i)).keep kept).run es' = some (p.keep kept') := by
  have hmem {k : Nat} {r : Rule π} := Parser.mem_numbered_iff (k := k) (r := r) hrules
  cases hc with
  | @matched j =>
    obtain ⟨k, r, f, es, v, hr, he, ht, rfl⟩ := h
    refine ⟨.enter nt i :: .attempt nt k i :: (es ++ [.reduce nt k v, .exit nt true j]), ?_,
      fun p => by simp [Replay.step_exit ht.le]⟩
    rintro _ ⟨⟩
    exact ⟨_, ht.node (hmem.mp hr) he⟩
  | @epsilon k v hε =>
    obtain rfl : kept = [] := h
    obtain ⟨⟨r, hr, he⟩, -⟩ := hε
    refine ⟨[.enter nt i, .reduce nt k v, .exit nt true i], ?_, fun p => ?_⟩
    · rintro _ ⟨⟩
      exact ⟨_, .epsilon (hmem.mp hr) he⟩
    · simp [(p.isInExpansion_enter nt i _).reduce, Replay.step_exit (Nat.le_refl i)]
  | fail =>
    obtain rfl : kept = [] := h
    refine ⟨[.enter nt i, .exit nt false i], nofun, fun p => ?_⟩
    rw [Replay.run_cons, Replay.step_exit (Nat.le_refl i) fun _ => rfl]
    rfl

/-- The events of a task open and close calls in turn, and what remains of them is a traversal. -/
theorem Transcript.replay (h : g.Transcript tokens task i o es) :
    ∃ kept, g.Remains tokens i task o kept ∧
      ∀ p, Awaits p i task → p.run es = some (p.keep kept) := by
  -- What remains does not depend on the replay, so it is named first.
  induction h with
  | empty =>
    refine ⟨[], ?_, by simp⟩
    rintro _ ⟨⟩
    exact ⟨_, .empty⟩
  | @shift id i _ hx hm =>
    refine ⟨[.shift id i], ?_, fun p hp => by simp [hp.shift]⟩
    rintro _ ⟨⟩
    exact ⟨_, .shift hx hm⟩
  | @mismatch id i _ _ => exact ⟨[.mismatch id i], nofun, fun p hp => by simp [hp.mismatch]⟩
  | @expand nt rules i o o' es es' hrules _ hc ih =>
    obtain ⟨kept, hk, hkept⟩ := ih
    obtain ⟨kept', hk', hkept'⟩ := hk.conclude hrules hc
    refine ⟨kept', hk', fun p hp => ?_⟩
    simp [hp.enter, hkept _ (p.isInExpansion_enter nt i _), hkept']
  | nil =>
    refine ⟨[], ?_, by simp⟩
    rintro _ ⟨⟩
    exact ⟨_, .nil⟩
  | stop _ ih =>
    obtain ⟨kept, -, hkept⟩ := ih
    exact ⟨kept, nofun, hkept⟩
  | @cons _ _ _ j _ _ _ _ _ ih ih' =>
    obtain ⟨kept, hk, hkept⟩ := ih
    obtain ⟨kept', hk', hkept'⟩ := ih'
    refine ⟨kept ++ kept', fun m hm => ?_, fun p hp => ?_⟩
    · obtain ⟨f, hf⟩ := hk j rfl
      obtain ⟨f', hf'⟩ := hk' m hm
      exact ⟨_, hf.append hf'⟩
    · simp [hkept p hp, hkept' _ (hp.keep kept)]
  | done => exact ⟨[], rfl, by simp⟩
  | skip _ _ ih =>
    obtain ⟨kept, hk, hkept⟩ := ih
    exact ⟨kept, hk.cons, hkept⟩
  | @attempt nt k r rest i o o' e es es' he _ hclose _ hnone ih ih' =>
    obtain ⟨kept, hk, hkept⟩ := ih
    obtain ⟨kept', hk', hkept'⟩ := ih'
    have hattempt (p : Replay) := hkept _ (p.isInRule_enter nt k i (.attempt nt k i))
    cases hclose with
    | backtrack =>
      refine ⟨kept', hk'.cons, fun p hp => ?_⟩
      simp [hp.attempt, hattempt, Replay.step_backtrack, hkept' p hp]
    | @reduce j v =>
      obtain rfl := hnone.resolve_left nofun
      obtain rfl : kept' = [] := hk'
      obtain ⟨f, hf⟩ := hk j rfl
      refine ⟨.attempt nt k i :: (kept ++ [.reduce nt k v]),
        ⟨k, r, f, kept, v, List.mem_cons_self, he, hf, rfl⟩, fun p hp => ?_⟩
      simp [hp.attempt, hattempt, Replay.step_reduce, hkept' _ (hp.keep _)]

end Grammar

end ActionGrammar
