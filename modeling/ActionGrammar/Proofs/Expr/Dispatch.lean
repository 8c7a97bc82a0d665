import ActionGrammar.Proofs.Expr.Calls
import ActionGrammar.Proofs.Registry.Receiver
import ActionGrammar.Proofs.Registry.Selection

/-! # Dispatch

Names are looked up when an expression is resolved, and overloads are selected
when it is evaluated. Between the two, no body is called on what it is not
declared for: it gets as many arguments as it has parameters, each one of the
kind of its parameter, and a receiver exactly if it belongs to a method. After
resolution, no name is missing.
-/

namespace ActionGrammar

variable {π : Type}

inductive ResolveError.IsOfSelection : ResolveError → Prop
  | noMatching (name : String) (kinds : List ValueKind) :
      IsOfSelection (.noMatchingOverload name kinds)
  | ambiguous (name : String) (kinds : List ValueKind) (count : Nat) :
      IsOfSelection (.ambiguousOverload name (some kinds) count)

namespace BodyCall

/-- Constructions and static calls run static bodies without a receiver. Calls on a receiver run
methods of its type. -/
inductive IsInForm (r : Registry π) : BodyCall π → Prop
  | construct {type : String} {d : TypeDef π} {params : List ValueKind}
      {run : Args → Effect π InvokeError Value} {es : List (Resolved π)} {vs : Args} :
      r.findType type = .ok d → ⟨params, .static run⟩ ∈ d.constructors.overloads →
      IsInForm r ⟨.construct d.constructors es, ⟨params, .static run⟩, none, vs⟩
  | static {method : String} {g : MethodGroup π} {params : List ValueKind}
      {run : Args → Effect π InvokeError Value} {es : List (Resolved π)} {vs : Args} :
      r.findMethodGroup method = .ok g → ⟨params, .static run⟩ ∈ g.overloads →
      IsInForm r ⟨.static g es, ⟨params, .static run⟩, none, vs⟩
  | invoke {type member : String} {d : TypeDef π} {g : MethodGroup π} {kind : ValueKind}
      {params : List ValueKind} {run : Value → Args → Effect π InvokeError Value}
      {e : Resolved π} {es : List (Resolved π)} {this : Value} {vs : Args} :
      r.findType type = .ok d → d.method? member = some g → ⟨params, .method run⟩ ∈ g.overloads →
      d.repr = some kind → kind.admits this = true →
      IsInForm r ⟨.invoke g e es, ⟨params, .method run⟩, some this, vs⟩

structure IsSafe (r : Registry π) (c : BodyCall π) : Prop where
  form : c.IsInForm r
  args : List.Forall₂ (fun kind v => kind.accepts (.ofValue v) = true) c.overload.params c.args

/-- The body runs, which it does not do where it lacks a receiver or must not have one. -/
def RunsBody (c : BodyCall π) : Prop :=
  (∃ run, c.overload.body = .static run ∧ c.receiver = none ∧ c.run = run c.args) ∨
    ∃ run this, c.overload.body = .method run ∧ c.receiver = some this ∧ c.run = run this c.args

variable {r : Registry π} {g : MethodGroup π} {o : Overload π} {es : List (Resolved π)} {vs : Args}

theorem IsInForm.runsBody {c : BodyCall π} (h : c.IsInForm r) : c.RunsBody := by
  cases h with
  | construct | static => exact .inl ⟨_, rfl, rfl, rfl⟩
  | invoke => exact .inr ⟨_, _, rfl, rfl, rfl⟩

theorem forall₂_args (h : o.accepts (vs.map ValueKind.ofValue) = true) :
    List.Forall₂ (fun kind v => kind.accepts (.ofValue v) = true) o.params vs := by
  rw [Overload.accepts_iff, List.forall₂_map_right_iff] at h
  exact h

theorem exists_static_of_select (ho : g.select true (vs.map ValueKind.ofValue) = .ok o) :
    ∃ params run, o = ⟨params, .static run⟩ ∧ ⟨params, .static run⟩ ∈ g.overloads ∧
      List.Forall₂ (fun kind v => kind.accepts (.ofValue v) = true) params vs := by
  obtain ⟨hmem, hstatic, haccepts⟩ := MethodGroup.select_eq_ok ho
  obtain ⟨params, body⟩ := o
  obtain ⟨run, rfl⟩ : ∃ run, body = .static run := Overload.isStatic_eq_true_iff.mp hstatic
  exact ⟨params, run, rfl, hmem, forall₂_args haccepts⟩

theorem isSafe_construct {type : String} (hg : r.findConstructors type = .ok g)
    (ho : g.select true (vs.map ValueKind.ofValue) = .ok o) :
    IsSafe r ⟨.construct g es, o, none, vs⟩ := by
  obtain ⟨d, hd, rfl, -⟩ := Registry.findConstructors_eq_ok_iff.mp hg
  obtain ⟨params, run, rfl, hmem, hargs⟩ := exists_static_of_select ho
  exact ⟨.construct hd hmem, hargs⟩

theorem isSafe_static {method : String} (hg : Template.findMethods r method true = .ok g)
    (ho : g.select true (vs.map ValueKind.ofValue) = .ok o) :
    IsSafe r ⟨.static g es, o, none, vs⟩ := by
  obtain ⟨hg, -⟩ := Template.findMethods_eq_ok_iff.mp hg
  obtain ⟨params, run, rfl, hmem, hargs⟩ := exists_static_of_select ho
  exact ⟨.static hg hmem, hargs⟩

theorem isSafe_invoke (hr : r.IsDeclared) {method : String} {e : Resolved π} {this : Value}
    (hg : Template.findMethods r method false = .ok g)
    (hthis : g.receiver.any (·.admits this) = true)
    (ho : g.select false (vs.map ValueKind.ofValue) = .ok o) :
    IsSafe r ⟨.invoke g e es, o, some this, vs⟩ := by
  obtain ⟨hg, -⟩ := Template.findMethods_eq_ok_iff.mp hg
  obtain ⟨type, member, d, -, -, hd, hg⟩ := Registry.findMethodGroup_eq_ok_iff.mp hg
  have hreceivers := Registry.forall_findType hr TypeDef.isKept_hasReceivers hd
  rw [hreceivers.receiver_method? hg] at hthis
  obtain ⟨kind, hkind, hadmits⟩ := (Option.any_eq_true ..).mp hthis
  obtain ⟨hmem, hstatic, haccepts⟩ := MethodGroup.select_eq_ok ho
  obtain ⟨params, body⟩ := o
  obtain ⟨run, rfl⟩ : ∃ run, body = .method run := Overload.isStatic_eq_false_iff.mp hstatic
  exact ⟨.invoke hd hg hmem hkind hadmits, forall₂_args haccepts⟩

end BodyCall

def EvalError.IsBeyondNames (e : EvalError) : Prop :=
  ∀ cause, e = .call (.resolve cause) → cause.IsOfSelection

namespace MethodGroup

variable {P : BodyCall π → Prop} {g : MethodGroup π}

theorem isOfSelection_of_select {isStatic : Bool} {kinds : List ValueKind} {cause : ResolveError}
    (h : g.select isStatic kinds = .error cause) : cause.IsOfSelection := by
  rcases (isPicked_pick g (g.overloads.filter (·.isStatic == isStatic)) kinds).cases with
    ⟨-, hx⟩ | ⟨o, -, hx⟩ | ⟨-, hx⟩
  · cases h.symm.trans hx
    exact .noMatching _ _
  · cases h.symm.trans hx
  · cases h.symm.trans hx
    exact .ambiguous _ _ _

theorem notes_invoke {caller : Resolved π} {receiver : Option Value} {vs : Args}
    (hP : ∀ o, g.select receiver.isNone (vs.map ValueKind.ofValue) = .ok o →
      P ⟨caller, o, receiver, vs⟩) :
    Notes P EvalError.IsBeyondNames ((g.invokeBy BodyCall.note caller receiver vs).mapError .call)
      ((g.invoke receiver vs).mapError .call) := by
  unfold invokeBy invoke
  cases hselect : g.select receiver.isNone (vs.map ValueKind.ofValue) with
  | ok o =>
    have hnote := Notes.note (R := fun _ => True) (hP o hselect) fun _ => trivial
    refine (hnote.mapError (S := fun e => ∃ cause, e = .invoke g.name cause)
      fun cause _ => ⟨cause, rfl⟩).mapError ?_
    rintro _ ⟨cause, rfl⟩ _ ⟨⟩
  | error cause =>
    refine (Notes.throw (R := fun e => e = .resolve cause) rfl).mapError ?_
    rintro _ rfl _ ⟨⟩
    exact isOfSelection_of_select hselect

end MethodGroup

namespace Resolved

variable {r : Registry π}

mutual

theorem notes_eval (hr : r.IsDeclared) (results : List Value) : ∀ (t : Template) {e : Resolved π},
    t.resolve r = .ok e →
      Notes (BodyCall.IsSafe r) EvalError.IsBeyondNames (evalBy BodyCall.note results e)
        (eval results e)
  | .constant l, e, h => by
    cases h
    exact .pure _
  | .result i, e, h => by
    cases h
    rw [evalBy, eval]
    cases results[i]? with
    | some v => exact .pure v
    | none => exact .throw nofun
  | .construct type args, e, h => by
    obtain ⟨g, es, hg, hes, rfl⟩ := Template.resolve_construct_eq_ok_iff.mp h
    rw [evalBy, eval]
    refine (notes_evalAll hr results args hes).bind fun vs => ?_
    exact MethodGroup.notes_invoke fun o ho => BodyCall.isSafe_construct hg ho
  | .static method args, e, h => by
    obtain ⟨g, es, hg, hes, rfl⟩ := Template.resolve_static_eq_ok_iff.mp h
    rw [evalBy, eval]
    refine (notes_evalAll hr results args hes).bind fun vs => ?_
    exact MethodGroup.notes_invoke fun o ho => BodyCall.isSafe_static hg ho
  | .invoke method receiver args, e, h => by
    obtain ⟨g, e', es, hg, he', hes, rfl⟩ := Template.resolve_invoke_eq_ok_iff.mp h
    rw [evalBy, eval]
    refine (notes_eval hr results receiver he').bind fun this => ?_
    by_cases hthis : g.receiver.any (·.admits this) = true
    · rw [if_pos hthis, if_pos hthis]
      refine (notes_evalAll hr results args hes).bind fun vs => ?_
      exact MethodGroup.notes_invoke fun o ho => BodyCall.isSafe_invoke hr hg hthis ho
    · rw [if_neg hthis, if_neg hthis]
      exact .throw nofun

theorem notes_evalAll (hr : r.IsDeclared) (results : List Value) :
    ∀ (ts : List Template) {es : List (Resolved π)}, Template.resolveAll r ts = .ok es →
      Notes (BodyCall.IsSafe r) EvalError.IsBeyondNames (evalAllBy BodyCall.note results es)
        (evalAll results es)
  | [], es, h => by
    cases h
    exact .pure _
  | t :: ts, es, h => by
    obtain ⟨e, es', he, hes, rfl⟩ := Template.resolveAll_cons_eq_ok_iff.mp h
    rw [evalAllBy, evalAll]
    refine (notes_eval hr results t he).bind fun v => ?_
    exact (notes_evalAll hr results ts hes).bind fun vs => .pure _

end

/-- Once a template is resolved, every body that its evaluation calls is called on what it is
declared for. If the evaluation fails in the registry, it is in the selection of an overload. -/
theorem eval_dispatches {t : Template} {e : Resolved π} (hr : r.IsDeclared)
    (h : t.resolve r = .ok e) (results : List Value) :
    evalBy BodyCall.run results e = eval results e ∧
    ∀ s, ∃ calls,
      (evalBy BodyCall.note results e).runFrom (s, []) =
        (((eval results e).runFrom s).1, ((eval results e).runFrom s).2, calls) ∧
      (∀ c ∈ calls, c.IsSafe r ∧ c.RunsBody) ∧
      ∀ cause, ((eval results e).runFrom s).1 = .error (.call (.resolve cause)) →
        cause.IsOfSelection := by
  refine ⟨evalBy_run results e, fun s => ?_⟩
  obtain ⟨calls, hrun, hsafe, hfail⟩ := notes_eval hr results t h s []
  exact ⟨calls, hrun, fun c hc => ⟨hsafe c hc, (hsafe c hc).form.runsBody⟩,
    fun cause hcause => hfail _ hcause cause rfl⟩

def growTwice : Template :=
  .invoke "plane.Shape.Circle.grow"
    (.invoke "plane.Shape.Circle.grow" (.result 0) [.result 0]) [.result 1]

/-- A circle grows by an integer, but not by null. -/
theorem eval_dispatches_circle :
    ∃ e : Resolved Unit, growTwice.resolve Registry.planeRegistry = .ok e ∧
      ((eval [.int 5, .null] e).runFrom .empty).1 =
        .error (.call (.resolve (.noMatchingOverload "plane.Shape.Circle.grow" [.any]))) ∧
      ResolveError.IsOfSelection (.noMatchingOverload "plane.Shape.Circle.grow" [.any]) ∧
      BodyCall.IsSafe Registry.planeRegistry ⟨.invoke Registry.growGroup (.result 0) [.result 0],
        ⟨[.int], .method fun this _ => pure this⟩, some (.int 5), [.int 5]⟩ := by
  have hresolve : growTwice.resolve Registry.planeRegistry =
      .ok (.invoke Registry.growGroup (.invoke Registry.growGroup (.result 0) [.result 0])
        [.result 1]) := by rfl
  obtain ⟨-, hall⟩ := eval_dispatches Registry.isDeclared_planeRegistry hresolve [.int 5, .null]
  obtain ⟨calls, hrun, hsafe, hfail⟩ := hall .empty
  have hcalls : [_] = calls := congrArg (·.2.2) hrun
  refine ⟨_, hresolve, rfl, hfail _ rfl, ?_⟩
  exact (hsafe _ (hcalls ▸ List.mem_singleton_self _)).1

end Resolved

end ActionGrammar
