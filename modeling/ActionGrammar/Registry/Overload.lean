import ActionGrammar.Registry.Error
import ActionGrammar.Text.Quoted
import ActionGrammar.Value.Shape

/-! # Overloads

A method is the group of its overloads. A call picks the only overload that
accepts the kinds of its arguments, or among several the only one declared
with exactly these kinds; otherwise it is ambiguous.
-/

namespace ActionGrammar

abbrev Args := List Value

namespace Args

def get (args : Args) (i : Nat) : Except InvokeError Value :=
  match args[i]? with
  | some v => .ok v
  | none => .error (.argument i "present")

/-- Argument `i` as read by `view`, or the complaint that it is not `expected`. -/
def view {α : Type} (args : Args) (i : Nat) (expected : String) (as? : Value → Option α) :
    Except InvokeError α := do
  match as? (← args.get i) with
  | some x => .ok x
  | none => .error (.argument i expected)

def bool (args : Args) (i : Nat) : Except InvokeError Bool := args.view i "a bool" Value.asBool?

def int (args : Args) (i : Nat) : Except InvokeError Int64 := args.view i "an int" Value.asInt?

def double (args : Args) (i : Nat) : Except InvokeError Float :=
  args.view i "a double" Value.asDouble?

def str (args : Args) (i : Nat) : Except InvokeError String := args.view i "a string" Value.asStr?

def extract {π : Type} (args : Args) (i : Nat) (target : Target) :
    Effect π InvokeError (Extract π) := do
  let store ← MonadState.get
  Attempt.ofExcept (args.view i target.label (Value.extract? store target.shape))

end Args

inductive Body (π : Type) where
  | static (run : Args → Effect π InvokeError Value)
  | method (run : Value → Args → Effect π InvokeError Value)

structure Overload (π : Type) where
  params : List ValueKind
  body : Body π

namespace Overload

variable {π : Type}

def isStatic (o : Overload π) : Bool :=
  match o.body with
  | .static _ => true
  | .method _ => false

def accepts (o : Overload π) (args : List ValueKind) : Bool :=
  o.params.length == args.length && (o.params.zip args).all fun (param, arg) => param.accepts arg

def isExact (o : Overload π) (args : List ValueKind) : Bool := o.params == args

/-- A static body runs without a receiver and a method body with one. -/
def call (o : Overload π) (receiver : Option Value) (args : Args) : Effect π InvokeError Value :=
  match o.body, receiver with
  | .static run, none => run args
  | .method run, some this => run this args
  | .static _, some _ => throw (.failed "static overload called with a receiver")
  | .method _, none => throw (.receiver "present")

/-- Kinds of objects are not spelled out, so only overloads without them are described. -/
def describe? (o : Overload π) : Option String := do
  let params ← o.params.mapM ValueKind.describe?
  return "Overload \x7b params: [" ++ ", ".intercalate params ++ "], is_static: " ++
    toString o.isStatic ++ " \x7d"

end Overload

/-- The overloads under one dotted name. The receiver is the kind of values that represent the
type they belong to. -/
structure MethodGroup (π : Type) where
  name : String
  receiver : Option ValueKind
  overloads : List (Overload π)

namespace MethodGroup

variable {π : Type}

def push (g : MethodGroup π) (o : Overload π) : MethodGroup π :=
  { g with overloads := g.overloads ++ [o] }

def has (g : MethodGroup π) (isStatic : Bool) : Bool :=
  g.overloads.any (·.isStatic == isStatic)

def pick (g : MethodGroup π) (candidates : List (Overload π)) (args : List ValueKind) :
    Except ResolveError (Overload π) :=
  match candidates.filter (·.accepts args) with
  | [] => .error (.noMatchingOverload g.name args)
  | [only] => .ok only
  | several =>
    match several.filter (·.isExact args) with
    | [exact] => .ok exact
    | _ => .error (.ambiguousOverload g.name (some args) several.length)

/-- Only static overloads, or only methods, are candidates. -/
def select (g : MethodGroup π) (isStatic : Bool) (args : List ValueKind) :
    Except ResolveError (Overload π) :=
  g.pick (g.overloads.filter (·.isStatic == isStatic)) args

def selectAny (g : MethodGroup π) (args : List ValueKind) : Except ResolveError (Overload π) :=
  g.pick g.overloads args

/-- With a receiver a method is called, without one a static overload. -/
def invoke (g : MethodGroup π) (receiver : Option Value) (args : Args) :
    Effect π CallError Value :=
  match g.select receiver.isNone (args.map ValueKind.ofValue) with
  | .ok o => (o.call receiver args).mapError (.invoke g.name)
  | .error e => throw (.resolve e)

def describe (g : MethodGroup π) : String :=
  "MethodGroup \x7b name: " ++ Quoted.encode g.name ++ ", overloads: " ++
    toString g.overloads.length ++ " \x7d"

end MethodGroup

end ActionGrammar
