import ActionGrammar.Expr.Eval
import ActionGrammar.Proofs.Registry.Selection
import ActionGrammar.Proofs.Value.Renaming

/-! # Pure actions

Where all callees of an action are functions of the values that they are called
on, so is the action: it changes no object, and it yields the same on arguments
that are the same up to a renaming. The latter also holds of callees that change
objects, as long as they tell objects apart by what they hold alone.
-/

namespace ActionGrammar

variable {π : Type}

namespace Expr

variable {κ : Type}

def callee? : Expr κ → Option κ
  | constant _ | result _ => none
  | construct g _ | static g _ | invoke g _ _ => some g

/-- The expressions that are evaluated before the callee is called. -/
def parts : Expr κ → List (Expr κ)
  | constant _ | result _ => []
  | construct _ args | static _ args => args
  | invoke _ receiver args => receiver :: args

end Expr

/-- The overload belongs to a callee of the expression or of one of its parts. -/
inductive Resolved.MayCall : Resolved π → Overload π → Prop
  | here {e : Resolved π} {g : MethodGroup π} {o : Overload π} :
      e.callee? = some g → o ∈ g.overloads → MayCall e o
  | part {e e' : Resolved π} {o : Overload π} : e' ∈ e.parts → MayCall e' o → MayCall e o

theorem Resolved.forall_mayCall_of_callee? {e : Resolved π} {P : Overload π → Prop}
    (he : ∀ e' : Resolved π, e' ∈ e.parts → ∀ o, e'.MayCall o → P o)
    (hg : ∀ g ∈ e.callee?, ∀ o ∈ g.overloads, P o) : ∀ o, e.MayCall o → P o := by
  intro o ho
  cases ho with
  | here h ho => exact hg _ h o ho
  | part h ho => exact he _ h o ho

theorem Resolved.isNull_of_evalAction {results : List Value} {action : List (Resolved π)}
    {s t : Store π} {v : Value} (h : (evalAction results action).runFrom s = (.ok v, t)) :
    v.isNull = false := by
  obtain ⟨w, u, -, hw⟩ := Attempt.runFrom_bind_eq_ok_iff.mp h
  split at hw
  · exact nomatch hw
  · rename_i hnull
    obtain ⟨rfl⟩ : v = w := by
      cases hw
      rfl
    exact Bool.eq_false_iff.mpr hnull

variable [Renameable π] {base r : Renaming} {s t : Store π} {g : MethodGroup π}

/-- The overload changes no object, and it does the same on arguments that are the same up to a
renaming. The renaming relates the objects of `base`, which the overload may know of. -/
structure Overload.IsFunction (base : Renaming) (o : Overload π) : Prop where
  keeps : ∀ receiver args, Effect.Keeps (o.call receiver args)
  follows : ∀ {r s t receiver receiver' args args'}, base ≤ r → Store.Renamed r s t →
    Option.Rel (Value.Renamed r) receiver receiver' →
    List.Forall₂ (Value.Renamed r) args args' →
    Effect.Follows Value.Renamed r s t (o.call receiver args) (o.call receiver' args')

/-- The overload does the same on arguments that are the same up to a renaming; it may change
objects. -/
def Overload.IsEquivariant (base : Renaming) (o : Overload π) : Prop :=
  ∀ {r s t receiver receiver' args args'}, base ≤ r → Store.Renamed r s t →
    Option.Rel (Value.Renamed r) receiver receiver' →
    List.Forall₂ (Value.Renamed r) args args' →
    Effect.Follows Value.Renamed r s t (o.call receiver args) (o.call receiver' args')

theorem Overload.IsFunction.isEquivariant {o : Overload π} (h : o.IsFunction base) :
    o.IsEquivariant base := h.follows

open Effect

theorem Value.Renamed.kind_eq {v w : Value} (h : v.Renamed r w) :
    ValueKind.ofValue v = ValueKind.ofValue w := by
  cases h <;> rfl

theorem ValueKind.admits_eq {v w : Value} (h : v.Renamed r w) (k : ValueKind) :
    k.admits v = k.admits w := by
  cases k <;> simp only [ValueKind.admits, h.kind_eq, h.isNull_eq]

namespace MethodGroup

variable {receiver receiver' : Option Value} {args args' : Args}

theorem keeps_invoke (hg : ∀ o ∈ g.overloads, o.IsFunction base) :
    Keeps (g.invoke receiver args) := by
  unfold invoke
  split
  · rename_i o ho
    exact ((hg o (select_eq_ok ho).1).keeps _ _).mapError
  · exact .throw _

theorem follows_invoke (hg : ∀ o ∈ g.overloads, o.IsEquivariant base) (hb : base ≤ r)
    (hst : s.Renamed r t) (hr : Option.Rel (Value.Renamed r) receiver receiver')
    (ha : List.Forall₂ (Value.Renamed r) args args') :
    Follows Value.Renamed r s t (g.invoke receiver args) (g.invoke receiver' args') := by
  have hnone : receiver.isNone = receiver'.isNone := by cases hr <;> rfl
  have hkinds : args.map ValueKind.ofValue = args'.map ValueKind.ofValue := by
    induction ha with
    | nil => rfl
    | cons h _ ih => rw [List.map_cons, List.map_cons, h.kind_eq, ih]
  unfold invoke
  rw [← hnone, ← hkinds]
  split
  · rename_i o ho
    exact (hg o (select_eq_ok ho).1 hb hst hr ha).mapError
  · exact .throw

end MethodGroup

def Resolved.IsFunction (base : Renaming) (e : Resolved π) : Prop :=
  ∀ o, e.MayCall o → o.IsFunction base

def Resolved.IsEquivariant (base : Renaming) (e : Resolved π) : Prop :=
  ∀ o, e.MayCall o → o.IsEquivariant base

namespace Resolved

variable {results results' : List Value} {e e' : Resolved π}

theorem IsFunction.isEquivariant (h : e.IsFunction base) : e.IsEquivariant base :=
  fun o ho => (h o ho).isEquivariant

theorem IsFunction.callee (h : e.IsFunction base) (hg : e.callee? = some g) :
    ∀ o ∈ g.overloads, o.IsFunction base :=
  fun o ho => h o (.here hg ho)

theorem IsFunction.part (h : e.IsFunction base) (he : e' ∈ e.parts) : e'.IsFunction base :=
  fun o ho => h o (.part he ho)

theorem IsEquivariant.callee (h : e.IsEquivariant base) (hg : e.callee? = some g) :
    ∀ o ∈ g.overloads, o.IsEquivariant base :=
  fun o ho => h o (.here hg ho)

theorem IsEquivariant.part (h : e.IsEquivariant base) (he : e' ∈ e.parts) :
    e'.IsEquivariant base :=
  fun o ho => h o (.part he ho)

theorem isFunction_of_callee? (he : ∀ e' : Resolved π, e' ∈ e.parts → e'.IsFunction base)
    (hg : ∀ g ∈ e.callee?, ∀ o ∈ g.overloads, o.IsFunction base) : e.IsFunction base :=
  forall_mayCall_of_callee? he hg

mutual

theorem keeps_eval : (e : Resolved π) → e.IsFunction base → Keeps (eval results e)
  | .constant _, _ => .pure _
  | .result i, _ => by
    unfold eval
    split
    · exact .pure _
    · exact .throw _
  | .construct g args, h => by
    unfold eval
    refine (keeps_evalAll args fun e he => h.part he).bind fun vs => ?_
    exact (MethodGroup.keeps_invoke (h.callee rfl)).mapError
  | .static g args, h => by
    unfold eval
    refine (keeps_evalAll args fun e he => h.part he).bind fun vs => ?_
    exact (MethodGroup.keeps_invoke (h.callee rfl)).mapError
  | .invoke g receiver args, h => by
    unfold eval
    refine (keeps_eval receiver (h.part List.mem_cons_self)).bind fun this => ?_
    split
    · refine (keeps_evalAll args fun e he => h.part (List.mem_cons_of_mem _ he)).bind fun vs => ?_
      exact (MethodGroup.keeps_invoke (h.callee rfl)).mapError
    · exact .throw _

theorem keeps_evalAll : (es : List (Resolved π)) → (∀ e ∈ es, e.IsFunction base) →
    Keeps (evalAll results es)
  | [], _ => .pure _
  | e :: es, h => by
    unfold evalAll
    refine (keeps_eval e (h e List.mem_cons_self)).bind fun v => ?_
    exact (keeps_evalAll es fun e he => h e (List.mem_cons_of_mem _ he)).bind fun vs => .pure _

end

abbrev AllRenamed (r : Renaming) : List Value → List Value → Prop := List.Forall₂ (Value.Renamed r)

theorem AllRenamed.mono {r' : Renaming} {vs ws : List Value} (h : AllRenamed r vs ws)
    (hr : r ≤ r') :
    AllRenamed r' vs ws := h.imp fun _ _ => Value.Renamed.mono hr

theorem getElem?_renamed {vs ws : List Value} (h : AllRenamed r vs ws) (i : Nat) :
    vs[i]? = none ∧ ws[i]? = none ∨
      ∃ v w, vs[i]? = some v ∧ ws[i]? = some w ∧ v.Renamed r w := by
  induction h generalizing i with
  | nil => exact .inl ⟨rfl, rfl⟩
  | cons h _ ih =>
    cases i with
    | zero => exact .inr ⟨_, _, rfl, rfl, h⟩
    | succ i => exact ih i

mutual

theorem follows_eval : (e : Resolved π) → e.IsEquivariant base →
    ∀ {r s t results results'}, base ≤ r → s.Renamed r t → AllRenamed r results results' →
    Follows Value.Renamed r s t (eval results e) (eval results' e)
  | .constant l, _ => fun _ hst _ => .pure hst (.plain (by cases l <;> rfl))
  | .result i, _ => by
    intro _ hst hr
    unfold eval
    rcases getElem?_renamed hr i with ⟨hv, hw⟩ | ⟨v, w, hv, hw, hvw⟩
    · rw [hv]
      exact .throw
    · rw [hv, hw]
      exact .pure hst hvw
  | .construct g args, h => by
    intro hb hst hr
    unfold eval
    refine (follows_evalAll args (fun e he => h.part he) hb hst hr).bind
      fun r' s' t' vs ws hr' hst' ha => ?_
    exact (MethodGroup.follows_invoke (h.callee rfl) (Renaming.le_trans hb hr') hst' .none
      ha).mapError
  | .static g args, h => by
    intro hb hst hr
    unfold eval
    refine (follows_evalAll args (fun e he => h.part he) hb hst hr).bind
      fun r' s' t' vs ws hr' hst' ha => ?_
    exact (MethodGroup.follows_invoke (h.callee rfl) (Renaming.le_trans hb hr') hst' .none
      ha).mapError
  | .invoke g receiver args, h => by
    intro hb hst hr
    unfold eval
    refine (follows_eval receiver (h.part List.mem_cons_self) hb hst hr).bind
      fun r' s' t' this this' hr' hst' hthis => ?_
    have hb' := Renaming.le_trans hb hr'
    have hadmits : g.receiver.any (·.admits this) = g.receiver.any (·.admits this') := by
      cases g.receiver with
      | none => rfl
      | some k => exact k.admits_eq hthis
    rw [← hadmits]
    split
    · refine (follows_evalAll args (fun e he => h.part (List.mem_cons_of_mem _ he)) hb' hst'
        (hr.mono hr')).bind fun r'' s'' t'' vs ws hr'' hst'' ha => ?_
      exact (MethodGroup.follows_invoke (h.callee rfl) (Renaming.le_trans hb' hr'') hst''
        (.some (hthis.mono hr'')) ha).mapError
    · exact .throw

theorem follows_evalAll : (es : List (Resolved π)) → (∀ e ∈ es, e.IsEquivariant base) →
    ∀ {r s t results results'}, base ≤ r → s.Renamed r t → AllRenamed r results results' →
    Follows AllRenamed r s t (evalAll results es) (evalAll results' es)
  | [], _ => fun _ hst _ => .pure hst .nil
  | e :: es, h => by
    intro hb hst hr
    unfold evalAll
    refine (follows_eval e (h e List.mem_cons_self) hb hst hr).bind
      fun r' s' t' v w hr' hst' hv => ?_
    have hb' := Renaming.le_trans hb hr'
    refine (follows_evalAll es (fun e he => h e (List.mem_cons_of_mem _ he)) hb' hst'
      (hr.mono hr')).bind fun r'' s'' t'' vs ws hr'' hst'' ha => ?_
    exact .pure hst'' (.cons (hv.mono hr'') ha)

end

theorem keeps_evalAction {action : List (Resolved π)} (h : ∀ e ∈ action, e.IsFunction base) :
    Keeps (evalAction results action) := by
  have hlast (v : Value) : Keeps (evalLast results v action) := by
    induction action generalizing v with
    | nil => exact .pure _
    | cons e es ih =>
      refine (keeps_eval e (h e List.mem_cons_self)).bind fun v => ?_
      exact ih (fun e he => h e (List.mem_cons_of_mem _ he)) v
  refine (hlast .null).bind fun v => ?_
  split
  · exact .throw _
  · exact .pure _

theorem follows_evalLast {action : List (Resolved π)} {v w : Value}
    (h : ∀ e ∈ action, e.IsEquivariant base) (hb : base ≤ r) (hst : s.Renamed r t)
    (hr : AllRenamed r results results') (hvw : v.Renamed r w) :
    Follows Value.Renamed r s t (evalLast results v action) (evalLast results' w action) := by
  induction action generalizing r s t v w with
  | nil => exact .pure hst hvw
  | cons e es ih =>
    refine (follows_eval e (h e List.mem_cons_self) hb hst hr).bind
      fun r' s' t' v w hr' hst' hvw => ?_
    exact ih (fun e he => h e (List.mem_cons_of_mem _ he)) (Renaming.le_trans hb hr') hst'
      (hr.mono hr') hvw

theorem follows_evalAction {action : List (Resolved π)} (h : ∀ e ∈ action, e.IsEquivariant base)
    (hb : base ≤ r) (hst : s.Renamed r t) (hr : AllRenamed r results results') :
    Follows Value.Renamed r s t (evalAction results action) (evalAction results' action) := by
  refine (follows_evalLast h hb hst hr (.plain rfl)).bind fun r' s' t' v w hr' hst' hvw => ?_
  rw [← hvw.isNull_eq]
  split
  · exact .throw
  · exact .pure hst' hvw

end Resolved

end ActionGrammar
