import ActionGrammar.Expr.Printer

/-! # Everywhere in an expression

A condition on callees, constants and results holds everywhere in an expression
if it holds at its head and everywhere in its parts. Naming callees otherwise
changes neither the constants and results nor the text.
-/

namespace ActionGrammar.Expr

variable {κ κ' : Type}

inductive Everywhere (callee : κ → Prop) (literal : Literal → Prop) (index : Nat → Prop) :
    Expr κ → Prop
  | constant {l : Literal} : literal l → Everywhere callee literal index (.constant l)
  | result {i : Nat} : index i → Everywhere callee literal index (.result i)
  | construct {t : κ} {args : List (Expr κ)} : callee t →
      (∀ e ∈ args, Everywhere callee literal index e) →
      Everywhere callee literal index (.construct t args)
  | static {m : κ} {args : List (Expr κ)} : callee m →
      (∀ e ∈ args, Everywhere callee literal index e) →
      Everywhere callee literal index (.static m args)
  | invoke {m : κ} {receiver : Expr κ} {args : List (Expr κ)} : callee m →
      Everywhere callee literal index receiver →
      (∀ e ∈ args, Everywhere callee literal index e) →
      Everywhere callee literal index (.invoke m receiver args)

def IsDoubleFree (e : Expr κ) : Prop :=
  e.Everywhere (fun _ => True) (fun l => ∀ x, l ≠ .double x) fun _ => True

namespace Everywhere

variable {C C' C'' : κ → Prop} {L L' L'' : Literal → Prop} {I I' I'' : Nat → Prop} {e : Expr κ}

theorem and (h : e.Everywhere C L I) (h' : e.Everywhere C' L' I')
    (hC : ∀ c, C c → C' c → C'' c) (hL : ∀ l, L l → L' l → L'' l)
    (hI : ∀ i, I i → I' i → I'' i) : e.Everywhere C'' L'' I'' := by
  induction h with
  | constant hl =>
    cases h' with
    | constant hl' => exact .constant (hL _ hl hl')
  | result hi =>
    cases h' with
    | result hi' => exact .result (hI _ hi hi')
  | construct hc _ ih =>
    cases h' with
    | construct hc' ha' => exact .construct (hC _ hc hc') fun e he => ih e he (ha' e he)
  | static hc _ ih =>
    cases h' with
    | static hc' ha' => exact .static (hC _ hc hc') fun e he => ih e he (ha' e he)
  | invoke hc _ _ ihr ih =>
    cases h' with
    | invoke hc' hr' ha' => exact .invoke (hC _ hc hc') (ihr hr') fun e he => ih e he (ha' e he)

end Everywhere

mutual

def map (f : κ → κ') : Expr κ → Expr κ'
  | .constant l => .constant l
  | .result i => .result i
  | .construct t args => .construct (f t) (mapAll f args)
  | .static m args => .static (f m) (mapAll f args)
  | .invoke m receiver args => .invoke (f m) (map f receiver) (mapAll f args)

def mapAll (f : κ → κ') : List (Expr κ) → List (Expr κ')
  | [] => []
  | e :: es => map f e :: mapAll f es

end

theorem mapAll_eq_map (f : κ → κ') (es : List (Expr κ)) : mapAll f es = es.map (map f) := by
  induction es with
  | nil => rfl
  | cons e es ih => rw [mapAll, ih, List.map_cons]

theorem printAll_eq_map (name : κ → String) (es : List (Expr κ)) :
    printAll name es = es.map (print name) := by
  induction es with
  | nil => rfl
  | cons e es ih => rw [printAll, ih, List.map_cons]

mutual

theorem print_map (f : κ → κ') (name : κ' → String) :
    ∀ e : Expr κ, print name (map f e) = print (name ∘ f) e
  | .constant _ => rfl
  | .result _ => rfl
  | .construct t args => by rw [map, print, print, printAll_mapAll f name args]; rfl
  | .static m args => by rw [map, print, print, printAll_mapAll f name args]; rfl
  | .invoke m receiver args => by
    rw [map, print, print, print_map f name receiver, printAll_mapAll f name args]; rfl

theorem printAll_mapAll (f : κ → κ') (name : κ' → String) :
    ∀ es : List (Expr κ), printAll name (mapAll f es) = printAll (name ∘ f) es
  | [] => rfl
  | e :: es => by rw [mapAll, printAll, printAll, print_map f name e, printAll_mapAll f name es]

end

theorem everywhere_map {f : κ → κ'} {C : κ' → Prop} {L : Literal → Prop} {I : Nat → Prop}
    {e : Expr κ} (h : e.Everywhere (C ∘ f) L I) : (e.map f).Everywhere C L I := by
  induction h with
  | constant hl => exact .constant hl
  | result hi => exact .result hi
  | construct hc _ ih =>
    rw [map, mapAll_eq_map]
    exact .construct hc (List.forall_mem_map.mpr ih)
  | static hc _ ih =>
    rw [map, mapAll_eq_map]
    exact .static hc (List.forall_mem_map.mpr ih)
  | invoke hc _ _ ihr ih =>
    rw [map, mapAll_eq_map]
    exact .invoke hc ihr (List.forall_mem_map.mpr ih)

end ActionGrammar.Expr
