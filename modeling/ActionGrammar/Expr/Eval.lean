import ActionGrammar.Expr.Resolve

/-! # Evaluation

A resolved expression is evaluated over the results of a rule's symbols,
receivers first and arguments from left to right. The last expression of an
action yields its value; the ones before run for their effects.
-/

namespace ActionGrammar

inductive EvalError where
  | resultOutOfRange (index : Nat) (count : Nat)
  | receiverType (method : String) (expected : Option ValueKind) (found : String)
  | nullResult
  | call (cause : CallError)
  deriving DecidableEq, Repr

def EvalError.message : EvalError → String
  | resultOutOfRange i count =>
    "variable $" ++ toString i ++ " is out of range: the rule has " ++ toString count ++ " results"
  | receiverType m expected found =>
    "receiver of `" ++ m ++ "` must be " ++
      expected.elim "an instance (type has none)" ValueKind.label ++ ", found " ++ found
  | nullResult => "rule action produced null"
  | call cause => cause.message

namespace Resolved

variable {π : Type}

mutual

def eval (results : List Value) : Resolved π → Effect π EvalError Value
  | .constant l => pure l.toValue
  | .result i =>
    match results[i]? with
    | some v => pure v
    | none => throw (.resultOutOfRange i results.length)
  | .construct g args => do
    let args ← evalAll results args
    (g.invoke none args).mapError .call
  | .static g args => do
    let args ← evalAll results args
    (g.invoke none args).mapError .call
  | .invoke g receiver args => do
    let this ← eval results receiver
    if g.receiver.any (·.admits this) then
      let args ← evalAll results args
      (g.invoke (some this) args).mapError .call
    else throw (.receiverType g.name g.receiver this.typeName)

def evalAll (results : List Value) : List (Resolved π) → Effect π EvalError (List Value)
  | [] => pure []
  | e :: es => do
    let v ← eval results e
    return v :: (← evalAll results es)

end

def evalLast (results : List Value) (last : Value) : List (Resolved π) → Effect π EvalError Value
  | [] => pure last
  | e :: es => do evalLast results (← eval results e) es

/-- An action must not yield null. -/
def evalAction (results : List Value) (action : List (Resolved π)) : Effect π EvalError Value := do
  let v ← evalLast results .null action
  if v.isNull then throw .nullResult else return v

end Resolved

end ActionGrammar
