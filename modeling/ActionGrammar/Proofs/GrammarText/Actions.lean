import ActionGrammar.Proofs.Attempt
import ActionGrammar.Proofs.GrammarText.Assembly
import ActionGrammar.Proofs.Value.Renaming

/-! # What the actions on grammar text do

An action makes the part that its rule assembles. Parts are payloads of objects
that are created while the tree is evaluated, and only these change, so parts of
trees that are evaluated before, or that are abandoned, are not touched.
-/

namespace ActionGrammar

open Attempt

namespace Store

variable {π : Type} {s t : Store π}

theorem size_le (h : s ≤ t) : s.cells.size ≤ t.cells.size := by
  rcases Nat.eq_zero_or_pos s.cells.size with hs | hs
  · omega
  · obtain ⟨hi, -⟩ := Array.getElem?_eq_some_iff.mp
      (h (s.cells.size - 1) _ (Array.getElem?_eq_getElem (by omega)))
    omega

end Store

namespace GrammarText

open ActionGrammar.Part

variable {ν : Type} {types : PartTypes}

def typeOf (types : PartTypes) : Part → NativeType
  | .grammar _ => types.grammar
  | .rule _ => types.rule
  | .names _ => types.names
  | .exprs _ => types.exprs
  | .expr _ => types.expr

/-- The value is an object that is not in `s` and holds the part in `t`. -/
def Holds (types : PartTypes) (s t : Store (Payload ν)) (v : Value) (p : Part) : Prop :=
  ∃ i, v = .object ⟨i, typeOf types p⟩ ∧ s.cells.size ≤ i ∧ t.cells[i]? = some (.part p)

def Item.Held (types : PartTypes) (s t : Store (Payload ν)) (v : Value) : Item → Prop
  | .literal l => v = (l.map Literal.toValue).getD .null
  | .part p => Holds types s t v p

variable {s s' t u : Store (Payload ν)} {v w : Value} {p q : Part}

namespace Holds

theorem mono (h : Holds types s t v p) (htu : t ≤ u) : Holds types s u v p := by
  obtain ⟨i, hv, hi, hp⟩ := h
  exact ⟨i, hv, hi, htu i _ hp⟩

theorem of_le (h : Holds types s' t v p) (hs : s ≤ s') : Holds types s t v p := by
  obtain ⟨i, hv, hi, hp⟩ := h
  exact ⟨i, hv, Nat.le_trans (Store.size_le hs) hi, hp⟩

theorem read? {α : Type} {as? : Part → Option α} {x : α} (h : Holds types s t v p)
    (hx : as? p = some x) : Part.read? t (typeOf types p) as? v = some x := by
  obtain ⟨i, rfl, -, hp⟩ := h
  simp [Part.read?, Store.read?, Store.borrow?, hp, hx]

theorem ofValue_eq (h : Holds types s t v p) : ValueKind.ofValue v = .native (typeOf types p) := by
  obtain ⟨i, rfl, -⟩ := h
  rfl

theorem isNull_eq (h : Holds types s t v p) : v.isNull = false := by
  obtain ⟨i, rfl, -⟩ := h
  rfl

theorem accepts (h : Holds types s t v p) :
    (ValueKind.native (typeOf types p)).accepts (ValueKind.ofValue v) = true := by
  rw [h.ofValue_eq]
  exact beq_self_eq_true (ValueKind.native (typeOf types p))

theorem admits (h : Holds types s t v p) :
    (ValueKind.native (typeOf types p)).admits v = true := by
  simp [ValueKind.admits, h.isNull_eq, h.accepts]

end Holds

theorem Item.Held.of_le {x : Item} (h : x.Held types s' t v) (hs : s ≤ s') :
    x.Held types s t v := by
  cases x with
  | literal => exact h
  | part => exact Holds.of_le h hs

/-- From `t`, the effect makes the part without changing what is in `s`. -/
def Makes {ε : Type} (types : PartTypes) (s t : Store (Payload ν))
    (x : Effect (Payload ν) ε Value) (p : Part) : Prop :=
  x.Ensures t (fun v u => s ≤ u ∧ Holds types s u v p) fun _ => False

/-! ### Callables -/

theorem makes_new (hs : s ≤ t) : Makes types s t (Part.new (typeOf types p) p) p := by
  refine ⟨Store.le_trans hs (Store.le_push t _), t.cells.size, rfl, Store.size_le hs, ?_⟩
  simp

theorem ensures_argument {α : Type} {as? : Part → Option α} {x : α} {args : Args} {i : Nat}
    {Q : α → Store (Payload ν) → Prop} {R : InvokeError → Prop} (hi : args[i]? = some v)
    (hv : Holds types s t v p) (hx : as? p = some x) (hQ : Q x t) :
    (argument (typeOf types p) as? args i).Ensures t Q R := by
  have hview : args.view i (typeOf types p).name (Part.read? t (typeOf types p) as?) = .ok x := by
    simp [Args.view, Args.get, hi, hv.read? hx, bind, Except.bind]
  unfold argument
  rw [ensures_bind, ensures_get, hview]
  exact hQ

theorem ensures_update {α : Type} {as? : Part → Option α} {f : α → Part} {x : α}
    {R : InvokeError → Prop} (hs : s ≤ t) (hv : Holds types s t v p) (hx : as? p = some x)
    (hf : typeOf types (f x) = typeOf types p) :
    (update (typeOf types p) as? f v).Ensures t
      (fun w u => w = v ∧ s ≤ u ∧ Holds types s u v (f x) ∧
        ∀ w q, q ≠ p → Holds types s t w q → Holds types s u w q) R := by
  have hread := hv.read? hx
  obtain ⟨i, rfl, hi, hp⟩ := hv
  have hlt : i < t.cells.size := (Array.getElem?_eq_some_iff.mp hp).1
  unfold update
  rw [ensures_bind, ensures_get, hread]
  simp only [ensures_bind, ensures_set, ensures_pure]
  refine ⟨trivial, fun j q hq => ?_, ⟨i, by rw [hf], hi, ?_⟩, fun w q hne hw => ?_⟩
  · have hj : j < s.cells.size := (Array.getElem?_eq_some_iff.mp hq).1
    rw [Store.write, Array.getElem?_setIfInBounds_ne (by dsimp only; omega)]
    exact hs j q hq
  · simp [Store.write, hlt]
  · obtain ⟨j, rfl, hj, hq⟩ := hw
    refine ⟨j, rfl, hj, ?_⟩
    rw [Store.write, Array.getElem?_setIfInBounds_ne, hq]
    -- An object at the same place would hold the same part.
    rintro rfl
    exact hne (Payload.part.inj (Option.some.inj (hq.symm.trans hp)))

variable {d : GrammarDecl} {r : RuleDecl} {ns : List String} {e : Template} {es : List Template}

theorem makes_newRule {n : String} (hs : s ≤ t) (hv : Holds types s t v (.names ns))
    (hw : Holds types s t w (.exprs es)) :
    Makes types s t (newRule types [.str n, v, w]) (.rule ⟨n, ns, es⟩) := by
  unfold Makes newRule
  simp only [ensures_bind]
  refine ensures_ofExcept_ok (a := n) rfl ?_
  refine ensures_argument (p := .names ns) rfl hv rfl ?_
  refine ensures_argument (p := .exprs es) rfl hw rfl ?_
  exact makes_new hs

/-- Constructions and static calls are made of a name and arguments alike. -/
theorem makes_named {f : String → List Template → Template} (hs : s ≤ t)
    (hv : Holds types s t v (.names ns)) (hw : Holds types s t w (.exprs es)) :
    Makes types s t (do
      let name ← argument types.names asNames? [v, w] 0
      let es ← argument types.exprs asExprs? [v, w] 1
      Part.new types.expr (.expr (f (DottedName.join name) es)))
      (.expr (f (DottedName.join ns) es)) := by
  unfold Makes
  simp only [ensures_bind]
  refine ensures_argument (p := .names ns) rfl hv rfl ?_
  refine ensures_argument (p := .exprs es) rfl hw rfl ?_
  exact makes_new hs

theorem makes_newInvoke {x : Value} (hs : s ≤ t) (hv : Holds types s t v (.names ns))
    (hx : Holds types s t x (.expr e)) (hw : Holds types s t w (.exprs es)) :
    Makes types s t (newInvoke types [v, x, w]) (.expr (.invoke (DottedName.join ns) e es)) := by
  unfold Makes newInvoke
  simp only [ensures_bind]
  refine ensures_argument (p := .names ns) rfl hv rfl ?_
  refine ensures_argument (p := .expr e) rfl hx rfl ?_
  refine ensures_argument (p := .exprs es) rfl hw rfl ?_
  exact makes_new hs

theorem makes_newResult {n : Int64} {i : Nat} (hs : s ≤ t) (hn : n.toInt = i) :
    Makes types s t (newResult types [.int n]) (.expr (.result i)) := by
  have hi : resultIndex n = .ok i := by
    have hn' : ¬ n < 0 := by
      rw [Int64.lt_iff_toInt_lt, hn, Int64.toInt_zero]
      omega
    rw [resultIndex, if_neg hn', hn, Int.toNat_natCast]
  unfold Makes newResult
  simp only [ensures_bind]
  refine ensures_ofExcept_ok (a := n) rfl ?_
  refine ensures_ofExcept_ok hi ?_
  exact makes_new hs

theorem makes_newConstant {l : Literal} (hs : s ≤ t) :
    Makes types s t (newConstant types [l.toValue]) (.expr (.constant l)) := by
  have hl : Part.literal l.toValue = .ok l := by cases l <;> rfl
  unfold Makes newConstant
  simp only [ensures_bind]
  refine ensures_ofExcept_ok (a := l.toValue) rfl ?_
  refine ensures_ofExcept_ok hl ?_
  exact makes_new hs

theorem makes_update {α : Type} {as? : Part → Option α} {f : α → Part} {x : α}
    (hs : s ≤ t) (hv : Holds types s t v p) (hx : as? p = some x)
    (hf : typeOf types (f x) = typeOf types p) :
    Makes types s t (update (typeOf types p) as? f v) (f x) := by
  refine (ensures_update hs hv hx hf).mono ?_ fun _ h => h
  rintro _ u ⟨rfl, hu, hfx, -⟩
  exact ⟨hu, hfx⟩

theorem makes_prependName {n : String} (hs : s ≤ t) (hv : Holds types s t v (.names ns)) :
    Makes types s t (Part.prependName types v [.str n]) (.names (n :: ns)) := by
  unfold Makes Part.prependName
  rw [ensures_bind]
  refine ensures_ofExcept_ok (a := n) rfl ?_
  exact makes_update (p := .names ns) hs hv rfl rfl

theorem makes_prependExpr (hs : s ≤ t) (hv : Holds types s t v (.exprs es))
    (hw : Holds types s t w (.expr e)) :
    Makes types s t (Part.prependExpr types v [w]) (.exprs (e :: es)) := by
  unfold Makes Part.prependExpr
  rw [ensures_bind]
  refine ensures_argument (p := .expr e) rfl hw rfl ?_
  exact makes_update (p := .exprs es) hs hv rfl rfl

theorem ensures_addRule (hs : s ≤ t) (hv : Holds types s t v (.grammar d))
    (hw : Holds types s t w (.rule r)) :
    (Part.addRule types v [w]).Ensures t
      (fun v' u => v' = v ∧ s ≤ u ∧
        Holds types s u v (.grammar { d with rules := r :: d.rules }) ∧ Holds types s u w (.rule r))
      fun _ => False := by
  unfold Part.addRule
  rw [ensures_bind]
  refine ensures_argument (p := .rule r) rfl hw rfl ?_
  refine (ensures_update (p := .grammar d) (f := fun d : GrammarDecl =>
    .grammar { d with rules := r :: d.rules }) hs hv rfl rfl).mono ?_ fun _ h => h
  rintro _ u ⟨rfl, hu, hd, hother⟩
  exact ⟨rfl, hu, hd, hother w _ (by simp) hw⟩

theorem makes_setStart (hs : s ≤ t) (hv : Holds types s t v (.grammar d))
    (hw : Holds types s t w (.rule r)) :
    Makes types s t (Part.setStart types v [w])
      (.grammar { d with start := some r.nonTerminal }) := by
  unfold Makes Part.setStart
  rw [ensures_bind]
  refine ensures_argument (p := .rule r) rfl hw rfl ?_
  exact makes_update (p := .grammar d) hs hv rfl rfl

/-! ### Calls -/

section

variable {name : String} {receiver : Option ValueKind} {params : List ValueKind} {args : Args}
  {Q : Value → Store (Payload ν) → Prop} {vs : List Value}

theorem ensures_invoke_only {body : Body (Payload ν)} {this : Option Value}
    (hstatic : (⟨params, body⟩ : Overload (Payload ν)).isStatic = this.isNone)
    (hparams : (⟨params, body⟩ : Overload (Payload ν)).accepts (args.map ValueKind.ofValue) = true)
    (h : ((⟨params, body⟩ : Overload (Payload ν)).call this args).Ensures t Q fun _ => False) :
    ((only name receiver params body).invoke this args).Ensures t Q fun _ => False := by
  have hselect : (only name receiver params body).select this.isNone
      (args.map ValueKind.ofValue) = .ok ⟨params, body⟩ := by
    simp [only, MethodGroup.select, MethodGroup.pick, hstatic, hparams]
  unfold MethodGroup.invoke
  rw [hselect]
  exact ensures_mapError.mpr h

theorem ensures_eval_construct {g : MethodGroup (Payload ν)} {es : List (Resolved (Payload ν))}
    (hargs : (Resolved.evalAll vs es).runFrom t = (.ok args, t))
    (h : (g.invoke none args).Ensures t Q fun _ => False) :
    (Resolved.eval vs (.construct g es)).Ensures t Q fun _ => False := by
  unfold Resolved.eval
  rw [ensures_bind]
  exact ensures_of_runFrom hargs (ensures_mapError.mpr h)

theorem ensures_eval_static {g : MethodGroup (Payload ν)} {es : List (Resolved (Payload ν))}
    (hargs : (Resolved.evalAll vs es).runFrom t = (.ok args, t))
    (h : (g.invoke none args).Ensures t Q fun _ => False) :
    (Resolved.eval vs (.static g es)).Ensures t Q fun _ => False := by
  unfold Resolved.eval
  rw [ensures_bind]
  exact ensures_of_runFrom hargs (ensures_mapError.mpr h)

theorem ensures_eval_invoke {g : MethodGroup (Payload ν)} {i : Nat}
    {es : List (Resolved (Payload ν))} {this : Value} (hthis : vs[i]? = some this)
    (hadmits : g.receiver.any (·.admits this) = true)
    (hargs : (Resolved.evalAll vs es).runFrom t = (.ok args, t))
    (h : (g.invoke (some this) args).Ensures t Q fun _ => False) :
    (Resolved.eval vs (.invoke g (.result i) es)).Ensures t Q fun _ => False := by
  have heval : (Resolved.eval vs (.result i) : Effect (Payload ν) EvalError Value).runFrom t =
      (.ok this, t) := by
    rw [Resolved.eval, hthis]
    rfl
  rw [Resolved.eval, ensures_bind]
  refine ensures_of_runFrom heval ?_
  rw [if_pos hadmits, ensures_bind]
  exact ensures_of_runFrom hargs (ensures_mapError.mpr h)

theorem makes_evalAction {action : List (Resolved (Payload ν))}
    (h : Makes types s t (Resolved.evalLast vs .null action) p) :
    Makes types s t (Resolved.evalAction vs action) p := by
  unfold Makes Resolved.evalAction
  rw [ensures_bind]
  refine Ensures.mono h (fun v u hv => ?_) fun _ h => h
  rw [if_neg (by simp [hv.2.isNull_eq])]
  exact hv

theorem makes_evalLast {e : Resolved (Payload ν)} (h : Makes types s t (Resolved.eval vs e) p) :
    Makes types s t (Resolved.evalLast vs v [e]) p := by
  unfold Makes
  rw [Resolved.evalLast, ensures_bind]
  exact Ensures.mono h (fun v u hv => hv) fun _ h => h

theorem accepts_of_holds {body : Body (Payload ν)}
    (h : List.Forall₂ (fun k v => k.accepts (ValueKind.ofValue v) = true) params args) :
    (⟨params, body⟩ : Overload (Payload ν)).accepts (args.map ValueKind.ofValue) = true := by
  have hall : (params.zip (args.map ValueKind.ofValue)).all (fun x => x.1.accepts x.2) = true := by
    induction h with
    | nil => rfl
    | cons hk _ ih => exact Bool.and_eq_true_iff.mpr ⟨hk, ih⟩
  simp [Overload.accepts, h.length_eq, hall]

theorem makes_prependName_action {n : String} {i : Nat} {action : List (Resolved (Payload ν))}
    (hs : s ≤ t) (hi : vs[i]? = some v)
    (hargs : (Resolved.evalAll vs action).runFrom t = (.ok [.str n], t))
    (hv : Holds types s t v (.names ns)) :
    Makes types s t
      (Resolved.evalAction vs [.invoke (Callee.prependName types) (.result i) action])
      (.names (n :: ns)) := by
  refine makes_evalAction (makes_evalLast (ensures_eval_invoke hi hv.admits hargs ?_))
  exact ensures_invoke_only rfl rfl (makes_prependName hs hv)

theorem makes_prependExpr_action {i : Nat} {action : List (Resolved (Payload ν))}
    (hs : s ≤ t) (hi : vs[i]? = some v)
    (hargs : (Resolved.evalAll vs action).runFrom t = (.ok [w], t))
    (hv : Holds types s t v (.exprs es)) (hw : Holds types s t w (.expr e)) :
    Makes types s t
      (Resolved.evalAction vs [.invoke (Callee.prependExpr types) (.result i) action])
      (.exprs (e :: es)) := by
  refine makes_evalAction (makes_evalLast (ensures_eval_invoke hi hv.admits hargs ?_))
  exact ensures_invoke_only rfl (accepts_of_holds (.cons hw.accepts .nil))
    (makes_prependExpr hs hv hw)

theorem ensures_eval_addRule {i : Nat} {action : List (Resolved (Payload ν))}
    (hs : s ≤ t) (hi : vs[i]? = some v)
    (hargs : (Resolved.evalAll vs action).runFrom t = (.ok [w], t))
    (hv : Holds types s t v (.grammar d)) (hw : Holds types s t w (.rule r)) :
    (Resolved.eval vs (.invoke (Callee.addRule types) (.result i) action)).Ensures t
      (fun v' u => v' = v ∧ s ≤ u ∧
        Holds types s u v (.grammar { d with rules := r :: d.rules }) ∧ Holds types s u w (.rule r))
      fun _ => False := by
  refine ensures_eval_invoke hi hv.admits hargs ?_
  exact ensures_invoke_only rfl (accepts_of_holds (.cons hw.accepts .nil))
    (ensures_addRule hs hv hw)

/-- The first rule of a grammar also sets its start. -/
theorem makes_grammar_action {i j : Nat} (hs : s ≤ t) (hi : vs[i]? = some v)
    (hj : vs[j]? = some w) (hv : Holds types s t v (.grammar d))
    (hw : Holds types s t w (.rule r)) :
    Makes types s t
      (Resolved.evalAction vs [.invoke (Callee.addRule types) (.result i) [.result j],
        .invoke (Callee.setStart types) (.result i) [.result j]])
      (.grammar ⟨r :: d.rules, some r.nonTerminal⟩) := by
  have hargs (t : Store (Payload ν)) :
      (Resolved.evalAll vs [.result j] : Effect (Payload ν) EvalError (List Value)).runFrom t =
        (.ok [w], t) := by
    simp only [Resolved.evalAll, Resolved.eval, hj]
    rfl
  apply makes_evalAction
  unfold Makes
  rw [Resolved.evalLast, ensures_bind]
  refine (ensures_eval_addRule hs hi (hargs t) hv hw).mono ?_ fun _ h => h
  rintro _ u ⟨-, hu, hv, hw⟩
  refine makes_evalLast (ensures_eval_invoke hi hv.admits (hargs u) ?_)
  exact ensures_invoke_only rfl (accepts_of_holds (.cons hw.accepts .nil))
    (makes_setStart hu hv hw)

end

/-- Where the items are held, the action of the rule makes the part that is assembled. -/
theorem Assembles.makes {ph : Phrase} {k : Nat} {xs : List Item} {r : Rule (Payload ν)}
    {vs : List Value} (ha : Assembles ph k xs p) (hr : (rulesOf types ph)[k]? = some r) (hs : s ≤ t)
    (hv : List.Forall₂ (fun v x => x.Held types s t v) vs xs) :
    Makes types s t (Resolved.evalAction (r.inputs vs) r.action) p := by
  cases ha with
  | grammar =>
    obtain rfl := Option.some.inj hr
    obtain _ | ⟨hrule, _ | ⟨hd, ⟨⟩⟩⟩ := hv
    exact makes_grammar_action hs rfl rfl hd hrule
  | rules =>
    obtain rfl := Option.some.inj hr
    obtain _ | ⟨hrule, _ | ⟨hd, ⟨⟩⟩⟩ := hv
    refine makes_evalAction (makes_evalLast ?_)
    refine (ensures_eval_addRule hs rfl rfl hd hrule).mono ?_ fun _ h => h
    rintro v u ⟨rfl, hu, hd, -⟩
    exact ⟨hu, hd⟩
  | noRules | noSymbols | noNameTail | noExprs | noArgs | noArgsTail =>
    obtain rfl := Option.some.inj hr
    exact makes_evalAction (makes_evalLast (ensures_eval_construct rfl
      (ensures_invoke_only rfl rfl (makes_new hs))))
  | rule =>
    obtain rfl := Option.some.inj hr
    obtain _ | ⟨hn, _ | ⟨-, _ | ⟨hns, _ | ⟨-, _ | ⟨hes, _ | ⟨-, ⟨⟩⟩⟩⟩⟩⟩⟩ := hv
    have hn : _ = Value.str _ := hn
    subst hn
    refine makes_evalAction (makes_evalLast (ensures_eval_construct rfl
      (ensures_invoke_only rfl ?_ (makes_newRule hs hns hes))))
    exact accepts_of_holds (.cons rfl (.cons (Holds.accepts hns) (.cons (Holds.accepts hes) .nil)))
  | symbols | name =>
    obtain rfl := Option.some.inj hr
    obtain _ | ⟨hn, _ | ⟨hns, ⟨⟩⟩⟩ := hv
    have hn : _ = Value.str _ := hn
    subst hn
    exact makes_prependName_action hs rfl rfl hns
  | nameTail =>
    obtain rfl := Option.some.inj hr
    obtain _ | ⟨-, _ | ⟨hn, _ | ⟨hns, ⟨⟩⟩⟩⟩ := hv
    have hn : _ = Value.str _ := hn
    subst hn
    exact makes_prependName_action hs rfl rfl hns
  | exprs =>
    obtain rfl := Option.some.inj hr
    obtain _ | ⟨he, _ | ⟨-, _ | ⟨hes, ⟨⟩⟩⟩⟩ := hv
    exact makes_prependExpr_action hs rfl rfl hes he
  | args =>
    obtain rfl := Option.some.inj hr
    obtain _ | ⟨he, _ | ⟨hes, ⟨⟩⟩⟩ := hv
    exact makes_prependExpr_action hs rfl rfl hes he
  | argsTail =>
    obtain rfl := Option.some.inj hr
    obtain _ | ⟨-, _ | ⟨he, _ | ⟨hes, ⟨⟩⟩⟩⟩ := hv
    exact makes_prependExpr_action hs rfl rfl hes he
  | construct =>
    obtain rfl := Option.some.inj hr
    obtain _ | ⟨-, _ | ⟨hns, _ | ⟨-, _ | ⟨hes, _ | ⟨-, ⟨⟩⟩⟩⟩⟩⟩ := hv
    refine makes_evalAction (makes_evalLast (ensures_eval_static rfl
      (ensures_invoke_only rfl ?_ (makes_named hs hns hes))))
    exact accepts_of_holds (.cons (Holds.accepts hns) (.cons (Holds.accepts hes) .nil))
  | static =>
    obtain rfl := Option.some.inj hr
    obtain _ | ⟨-, _ | ⟨hns, _ | ⟨-, _ | ⟨hes, _ | ⟨-, ⟨⟩⟩⟩⟩⟩⟩ := hv
    refine makes_evalAction (makes_evalLast (ensures_eval_static rfl
      (ensures_invoke_only rfl ?_ (makes_named hs hns hes))))
    exact accepts_of_holds (.cons (Holds.accepts hns) (.cons (Holds.accepts hes) .nil))
  | invoke =>
    obtain rfl := Option.some.inj hr
    obtain _ | ⟨hns, _ | ⟨-, _ | ⟨he, _ | ⟨hes, _ | ⟨-, ⟨⟩⟩⟩⟩⟩⟩ := hv
    refine makes_evalAction (makes_evalLast (ensures_eval_static rfl
      (ensures_invoke_only rfl ?_ (makes_newInvoke hs hns he hes))))
    exact accepts_of_holds
      (.cons (Holds.accepts hns) (.cons (Holds.accepts he) (.cons (Holds.accepts hes) .nil)))
  | exprLiteral =>
    obtain rfl := Option.some.inj hr
    obtain _ | ⟨he, ⟨⟩⟩ := hv
    exact makes_evalAction (makes_evalLast (ensures_of_runFrom rfl ⟨hs, he⟩))
  | result hi =>
    obtain rfl := Option.some.inj hr
    obtain _ | ⟨hn, ⟨⟩⟩ := hv
    have hn : _ = Value.int _ := hn
    subst hn
    exact makes_evalAction (makes_evalLast (ensures_eval_static rfl
      (ensures_invoke_only rfl rfl (makes_newResult hs hi))))
  | @constant k l =>
    obtain _ | ⟨hl, ⟨⟩⟩ := hv
    have hl : _ = l.toValue := hl
    subst hl
    match k with
    | 0 | 1 | 2 =>
      obtain rfl := Option.some.inj hr
      exact makes_evalAction (makes_evalLast (ensures_eval_static rfl
        (ensures_invoke_only rfl rfl (makes_newConstant hs))))

/-! ### Evaluation -/

/-- Evaluated trees are spelled by what they yield, and their values hold what they stand for. -/
theorem evaluates_built {tokens : List Token} (hfits : ∀ x ∈ tokens, x.Fits) {ss : List Symbol}
    {f : Forest Token} {vs : List Value}
    (h : (built types).Evaluates tokens ss s f vs t) :
    s ≤ t ∧ ∃ xs, Builds f xs ∧ Spells ss f.yield xs ∧
      List.Forall₂ (fun v x => x.Held types s t v) vs xs := by
  induction h with
  | nil => exact ⟨Store.le_refl _, [], .nil, .nil, .nil⟩
  | empty _ ih =>
    obtain ⟨hs, xs, hb, hsp, hv⟩ := ih
    exact ⟨hs, _, .empty hb, .empty hsp, .cons rfl hv⟩
  | token hx hm hval _ ih =>
    obtain ⟨hs, xs, hb, hsp, hv⟩ := ih
    obtain ⟨-, rfl⟩ := matches_built_iff.mp hm
    cases hval
    exact ⟨hs, _, .token rfl hb, .token (hfits _ hx) hsp, .cons rfl hv⟩
  | node hr _ hact _ ih ih' =>
    -- The action may change the children's objects, but none that was there before them.
    obtain ⟨ph, rfl, hrule⟩ := rule?_built_eq_some hr
    obtain ⟨hs, ys, hb, hsp, hv⟩ := ih
    obtain ⟨p, ha, hw⟩ := hsp.assembles hrule
    obtain ⟨hs', hp⟩ := (ha.makes hrule hs hv).of_ok hact
    obtain ⟨hs'', xs, hb', hsp', hv'⟩ := ih'
    refine ⟨Store.le_trans hs' hs'', _, .node rfl ha hb hb', .phrase hw hsp',
      .cons (Holds.mono hp hs'') ?_⟩
    exact hv'.imp fun _ _ hx => hx.of_le hs'
  | abandon _ _ ih ih' =>
    -- Of the abandoned trees only the objects are left, and these came before.
    obtain ⟨hs, -⟩ := ih
    obtain ⟨hs', xs, hb, hsp, hv⟩ := ih'
    exact ⟨Store.le_trans hs hs', xs, hb, hsp, hv.imp fun _ _ hx => hx.of_le hs⟩

theorem actionsSucceed_built {tokens : List Token} (hfits : ∀ x ∈ tokens, x.Fits) :
    (built types : Grammar (Payload ν) Token).ActionsSucceed tokens := by
  intro nt k r s c results s' hr he
  obtain ⟨ph, rfl, hrule⟩ := rule?_built_eq_some hr
  obtain ⟨hs, xs, -, hsp, hv⟩ := evaluates_built hfits he
  obtain ⟨p, ha, -⟩ := hsp.assembles hrule
  obtain ⟨v, t, hact, -⟩ := (ha.makes hrule hs hv).exists_ok
  exact ⟨v, t, hact⟩

end GrammarText

end ActionGrammar
