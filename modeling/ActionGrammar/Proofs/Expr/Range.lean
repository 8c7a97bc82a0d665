import ActionGrammar.Expr.Eval
import ActionGrammar.Proofs.Attempt
import ActionGrammar.Proofs.Expr.Everywhere

/-! # Results that are there

An action whose indices are all below the number of results never asks for a result
that is not there, however deep in its calls the indices stand.
-/

namespace ActionGrammar

open Attempt

def Expr.IsWithin {κ : Type} (n : Nat) (e : Expr κ) : Prop :=
  e.Everywhere (fun _ => True) (fun _ => True) (· < n)

def EvalError.IsInRange (e : EvalError) : Prop := ∀ i n, e ≠ .resultOutOfRange i n

variable {π α β : Type}

def StaysInRange (x : Effect π EvalError α) : Prop :=
  ∀ s, x.Ensures s (fun _ _ => True) EvalError.IsInRange

namespace StaysInRange

theorem pure (a : α) : StaysInRange (pure a : Effect π EvalError α) := fun _ => trivial

theorem throw {e : EvalError} (h : e.IsInRange) :
    StaysInRange (throw e : Effect π EvalError α) := fun _ => h

theorem bind {x : Effect π EvalError α} {f : α → Effect π EvalError β} (hx : StaysInRange x)
    (hf : ∀ a, StaysInRange (f a)) : StaysInRange (x >>= f) := by
  intro s
  rw [ensures_bind]
  exact (hx s).mono (fun a t _ => hf a t) fun _ h => h

theorem invoke (g : MethodGroup π) (receiver : Option Value) (args : Args) :
    StaysInRange ((g.invoke receiver args).mapError EvalError.call) := by
  intro s
  rw [ensures_mapError]
  exact .of_forall (fun _ _ => trivial) nofun

end StaysInRange

namespace Resolved

variable {results : List Value}

theorem evalAll_staysInRange {es : List (Resolved π)}
    (h : ∀ e ∈ es, StaysInRange (eval results e)) : StaysInRange (evalAll results es) := by
  induction es with
  | nil => exact .pure []
  | cons e es ih =>
    obtain ⟨he, hes⟩ := List.forall_mem_cons.mp h
    exact he.bind fun v => (ih hes).bind fun vs => .pure (v :: vs)

theorem eval_staysInRange {e : Resolved π} (h : e.IsWithin results.length) :
    StaysInRange (eval results e) := by
  induction h with
  | constant => exact .pure _
  | @result i hi =>
    rw [eval, List.getElem?_eq_getElem hi]
    exact .pure _
  | construct _ _ ih =>
    rw [eval]
    exact (evalAll_staysInRange ih).bind fun vs => .invoke _ _ vs
  | static _ _ ih =>
    rw [eval]
    exact (evalAll_staysInRange ih).bind fun vs => .invoke _ _ vs
  | invoke _ _ _ ihr ih =>
    rw [eval]
    refine ihr.bind fun this => ?_
    split
    · exact (evalAll_staysInRange ih).bind fun vs => .invoke _ _ vs
    · refine .throw fun i n h => ?_
      cases h

theorem evalLast_staysInRange {action : List (Resolved π)}
    (h : ∀ e ∈ action, e.IsWithin results.length) (last : Value) :
    StaysInRange (evalLast results last action) := by
  induction action generalizing last with
  | nil => exact .pure last
  | cons e es ih =>
    obtain ⟨he, hes⟩ := List.forall_mem_cons.mp h
    exact (eval_staysInRange he).bind fun v => ih hes v

theorem evalAction_staysInRange {action : List (Resolved π)}
    (h : ∀ e ∈ action, e.IsWithin results.length) : StaysInRange (evalAction results action) := by
  refine (evalLast_staysInRange h .null).bind fun v => ?_
  split
  · exact .throw nofun
  · exact .pure v

end Resolved

end ActionGrammar
