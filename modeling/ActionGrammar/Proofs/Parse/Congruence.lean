import ActionGrammar.Proofs.Parse.Engine

/-! # Relating parses step by step

An expansion is made of a few kinds of steps. A relation between parses that
all of them respect, other than those that enter or leave a nonterminal, holds
between two attempts at the rules of a nonterminal, if it holds between the
expansions nested in them.
-/

namespace ActionGrammar

open Attempt

def Event.isEnter : Event → Bool
  | .enter _ _ => true
  | _ => false

def Event.isExit : Event → Bool
  | .exit _ _ _ => true
  | _ => false

def ParseError.isLimit : ParseError → Bool
  | .fuelExhausted _ | .recursionLimitExceeded _ => true
  | _ => false

namespace Parsing

variable {π : Type}

/-- A relation between parses under two limits that is respected by sequencing and by all steps
that neither enter nor leave a nonterminal. -/
structure Congruence (l l' : Limits) (R : ∀ {α : Type}, Parsing π α → Parsing π α → Prop) :
    Prop where
  ofExcept : ∀ {α : Type} (r : Except ParseError α), (∀ e, r = .error e → e.isLimit = false) →
    R (Attempt.ofExcept r) (Attempt.ofExcept r)
  bind : ∀ {α β : Type} {x x' : Parsing π α} {f f' : α → Parsing π β}, R x x' →
    (∀ a, R (f a) (f' a)) → R (x >>= f) (x' >>= f')
  onStore : ∀ {α : Type} (f : StateM (Store π) α), R (onStore f) (onStore f)
  burn : R (burn l) (burn l')
  cursor : R cursor cursor
  moveTo : ∀ i, R (moveTo i) (moveTo i)
  test : ∀ i, R (modify fun run => { run with furthest := max run.furthest i })
    (modify fun run => { run with furthest := max run.furthest i })
  record : ∀ e : Event, e.isEnter = false → e.isExit = false → R (record e) (record e)

namespace Congruence

variable {l l' : Limits} {R : ∀ {α : Type}, Parsing π α → Parsing π α → Prop} {α : Type}

theorem pure (hR : Congruence l l' R) (a : α) :
    R (Pure.pure a : Parsing π α) (Pure.pure a) := hR.ofExcept (.ok a) nofun

theorem throw (hR : Congruence l l' R) {e : ParseError} (he : e.isLimit = false) :
    R (MonadExcept.throw e : Parsing π α) (MonadExcept.throw e) :=
  hR.ofExcept (.error e) fun _ h => Except.error.inj h ▸ he

theorem ofLookup (hR : Congruence l l' R) (r : Except HandleFault α) :
    R (Parsing.ofLookup r : Parsing π α) (Parsing.ofLookup r) := by
  refine hR.ofExcept _ fun e he => ?_
  cases r with
  | error h => exact Except.error.inj he ▸ rfl
  | ok a => cases he

theorem onEffect (hR : Congruence l l' R) (f : Effect π EvalError α) :
    R (onEffect f) (onEffect f) := by
  refine hR.bind (hR.onStore _) fun r => hR.ofExcept _ fun e he => ?_
  cases r with
  | error h => exact Except.error.inj he ▸ rfl
  | ok a => cases he

end Congruence

end Parsing

namespace Parser

open Parsing

variable {π τ : Type} {p p' : Parser π τ} {tokens : Array τ} {nt : NonTerminal} {i k : Nat}
  {r : Rule π} {rules : List (Rule π)} {outcome : Outcome}
  {R : ∀ {α : Type}, Parsing π α → Parsing π α → Prop}

theorem reduce_rel (hR : Congruence p.limits p'.limits R) (results : List Value) :
    R (reduce nt k r results) (reduce nt k r results) :=
  hR.bind (hR.onEffect _) fun v => hR.bind (hR.record _ rfl rfl) fun _ => hR.pure v

theorem conclude_rel (hR : Congruence p.limits p'.limits R) :
    R (conclude nt i rules outcome) (conclude nt i rules outcome) := by
  unfold conclude
  split
  · exact hR.bind (hR.moveTo _) fun _ => hR.pure _
  · refine hR.bind (hR.moveTo _) fun _ => ?_
    split
    · exact hR.bind (reduce_rel hR _) fun _ => hR.pure _
    · exact hR.pure _
  · exact hR.bind (hR.moveTo _) fun _ => hR.pure _

variable [Token τ] [TokenValue π τ]

theorem matchTerminal_rel (hR : Congruence p.limits p'.limits R) (hg : p.grammar = p'.grammar)
    (id : Terminal.Id) : R (p.matchTerminal tokens id) (p'.matchTerminal tokens id) := by
  unfold matchTerminal
  rw [hg]
  refine hR.bind hR.burn fun _ => hR.bind (hR.ofLookup _) fun terminal => ?_
  refine hR.bind hR.cursor fun here => hR.bind (hR.test here) fun _ => ?_
  split
  · split
    · refine hR.bind (hR.record _ rfl rfl) fun _ => hR.bind (hR.onStore _) fun v => ?_
      exact hR.bind (hR.moveTo _) fun _ => hR.pure _
    · exact hR.bind (hR.record _ rfl rfl) fun _ => hR.pure _
  · exact hR.bind (hR.record _ rfl rfl) fun _ => hR.pure _

variable {expand expand' : NonTerminal → Parsing π (Option Value)}

theorem matchSymbol_rel (hR : Congruence p.limits p'.limits R) (hg : p.grammar = p'.grammar)
    (hE : ∀ nt, R (expand nt) (expand' nt)) (s : Symbol) :
    R (p.matchSymbol tokens expand s) (p'.matchSymbol tokens expand' s) := by
  cases s with
  | terminal id =>
    rw [matchSymbol, matchSymbol]
    split
    · exact hR.pure _
    · exact matchTerminal_rel hR hg id
  | nonTerminal nt => exact hE nt

theorem matchSymbols_rel (hR : Congruence p.limits p'.limits R) (hg : p.grammar = p'.grammar)
    (hE : ∀ nt, R (expand nt) (expand' nt)) (ss : List Symbol) :
    R (p.matchSymbols tokens expand ss) (p'.matchSymbols tokens expand' ss) := by
  induction ss with
  | nil => exact hR.pure _
  | cons s ss ih =>
    rw [matchSymbols_cons, matchSymbols_cons]
    refine hR.bind (matchSymbol_rel hR hg hE s) fun result => ?_
    cases result with
    | none => exact hR.pure none
    | some v => exact hR.bind ih fun results => hR.pure _

theorem tryRule_rel (hR : Congruence p.limits p'.limits R) (hg : p.grammar = p'.grammar)
    (hE : ∀ nt, R (expand nt) (expand' nt)) :
    R (p.tryRule tokens expand nt i rules outcome k r)
      (p'.tryRule tokens expand' nt i rules outcome k r) := by
  unfold tryRule
  split
  · exact hR.pure _
  · refine hR.bind (hR.moveTo _) fun _ => hR.bind (hR.record _ rfl rfl) fun _ => ?_
    refine hR.bind (matchSymbols_rel hR hg hE r.symbols) fun result => ?_
    cases result with
    | none => exact hR.bind (hR.record _ rfl rfl) fun _ => hR.pure _
    | some results =>
      refine hR.bind (reduce_rel hR _) fun value => ?_
      cases outcome.matched with
      | none => exact hR.bind hR.cursor fun _ => hR.pure _
      | some earlier =>
        rw [hg]
        refine hR.bind (hR.ofLookup _) fun _ => hR.bind (hR.ofLookup _) fun _ => ?_
        exact hR.bind (hR.ofLookup _) fun _ => hR.throw rfl

theorem tryRules_rel (hR : Congruence p.limits p'.limits R) (hg : p.grammar = p'.grammar)
    (expand expand' : NonTerminal → Parsing π (Option Value))
    (hE : ∀ nt, R (expand nt) (expand' nt)) (rest : List (Nat × Rule π)) :
    R (p.tryRules tokens expand nt i rules outcome rest)
      (p'.tryRules tokens expand' nt i rules outcome rest) := by
  induction rest generalizing outcome with
  | nil => exact hR.pure _
  | cons kr rest ih => exact hR.bind (tryRule_rel hR hg hE) fun _ => ih

end Parser

end ActionGrammar
