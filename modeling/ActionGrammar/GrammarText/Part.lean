import ActionGrammar.GrammarText.Declaration

/-! # Parts of declared grammars

Grammar text is read by a grammar whose actions put declarations together from
parts. The parts are objects, and lists of parts grow at the front, because
the last element of a list is read first.
-/

namespace ActionGrammar

inductive Part where
  | grammar (d : GrammarDecl)
  | rule (r : RuleDecl)
  | names (ns : List String)
  | exprs (es : List Template)
  | expr (e : Template)

namespace Part

def asGrammar? : Part → Option GrammarDecl
  | grammar d => some d
  | _ => none

def asRule? : Part → Option RuleDecl
  | rule r => some r
  | _ => none

def asNames? : Part → Option (List String)
  | names ns => some ns
  | _ => none

def asExprs? : Part → Option (List Template)
  | exprs es => some es
  | _ => none

def asExpr? : Part → Option Template
  | expr e => some e
  | _ => none

end Part

/-- The native types of parts. Their names are the embedding program's choice. -/
structure PartTypes where
  grammar : NativeType
  rule : NativeType
  names : NativeType
  exprs : NativeType
  expr : NativeType
  distinct : [grammar, rule, names, exprs, expr].Pairwise (· ≠ ·)

/-- The payload of an object: one of the embedding program's own, or a part. -/
inductive Payload (ν : Type) where
  | host (x : ν)
  | part (p : Part)

namespace Part

variable {ν α : Type}

def read? (s : Store (Payload ν)) (t : NativeType) (as? : Part → Option α) (v : Value) :
    Option α :=
  match s.read? t v with
  | some (.part p) => as? p
  | _ => none

def new (t : NativeType) (p : Part) : Effect (Payload ν) InvokeError Value :=
  Attempt.ofState (Store.alloc t (.part p))

def argument (t : NativeType) (as? : Part → Option α) (args : Args) (i : Nat) :
    Effect (Payload ν) InvokeError α := do
  let s ← get
  Attempt.ofExcept (args.view i t.name (read? s t as?))

def update (t : NativeType) (as? : Part → Option α) (f : α → Part) (this : Value) :
    Effect (Payload ν) InvokeError Value := do
  let s ← get
  match this, read? s t as? this with
  | .object o, some x =>
    set (s.write o (.part (f x)))
    return this
  | _, _ => throw (.receiver t.name)

variable (types : PartTypes)

def addRule (this : Value) (args : Args) : Effect (Payload ν) InvokeError Value := do
  let r ← argument types.rule asRule? args 0
  update types.grammar asGrammar? (fun d => .grammar { d with rules := r :: d.rules }) this

def setStart (this : Value) (args : Args) : Effect (Payload ν) InvokeError Value := do
  let r ← argument types.rule asRule? args 0
  update types.grammar asGrammar? (fun d => .grammar { d with start := some r.nonTerminal }) this

def grammarDecl : TypeDecl (Payload ν) :=
  .ofNative "Meta.Definition" types.grammar [
    .creator [] fun _ => new types.grammar (.grammar .empty),
    .method "add_rule" [.native types.rule] (addRule types),
    .method "set_start" [.native types.rule] (setStart types)]

def newRule (args : Args) : Effect (Payload ν) InvokeError Value := do
  let nonTerminal ← Attempt.ofExcept (args.str 0)
  let symbols ← argument types.names asNames? args 1
  let action ← argument types.exprs asExprs? args 2
  new types.rule (.rule ⟨nonTerminal, symbols, action⟩)

def ruleDecl : TypeDecl (Payload ν) :=
  .ofNative "Meta.Rule" types.rule [
    .creator [.str, .native types.names, .native types.exprs] (newRule types)]

def prependName (this : Value) (args : Args) : Effect (Payload ν) InvokeError Value := do
  let n ← Attempt.ofExcept (args.str 0)
  update types.names asNames? (fun ns => .names (n :: ns)) this

def namesDecl : TypeDecl (Payload ν) :=
  .ofNative "Meta.Names" types.names [
    .creator [] fun _ => new types.names (.names []),
    .method "prepend" [.str] (prependName types)]

def prependExpr (this : Value) (args : Args) : Effect (Payload ν) InvokeError Value := do
  let e ← argument types.expr asExpr? args 0
  update types.exprs asExprs? (fun es => .exprs (e :: es)) this

def exprsDecl : TypeDecl (Payload ν) :=
  .ofNative "Meta.Exprs" types.exprs [
    .creator [] fun _ => new types.exprs (.exprs []),
    .method "prepend" [.native types.expr] (prependExpr types)]

/-- An index of a result must not be negative. -/
def resultIndex (n : Int64) : Except InvokeError Nat :=
  if n < 0 then .error (.failed "variable index out of range") else .ok n.toInt.toNat

def literal (v : Value) : Except InvokeError Literal :=
  match Literal.ofValue? v with
  | some l => .ok l
  | none => .error (.argument 0 "a literal")

def newConstruct (args : Args) : Effect (Payload ν) InvokeError Value := do
  let name ← argument types.names asNames? args 0
  let es ← argument types.exprs asExprs? args 1
  new types.expr (.expr (.construct (DottedName.join name) es))

def newStatic (args : Args) : Effect (Payload ν) InvokeError Value := do
  let name ← argument types.names asNames? args 0
  let es ← argument types.exprs asExprs? args 1
  new types.expr (.expr (.static (DottedName.join name) es))

def newInvoke (args : Args) : Effect (Payload ν) InvokeError Value := do
  let name ← argument types.names asNames? args 0
  let receiver ← argument types.expr asExpr? args 1
  let es ← argument types.exprs asExprs? args 2
  new types.expr (.expr (.invoke (DottedName.join name) receiver es))

def newResult (args : Args) : Effect (Payload ν) InvokeError Value := do
  let n ← Attempt.ofExcept (args.int 0)
  let i ← Attempt.ofExcept (resultIndex n)
  new types.expr (.expr (.result i))

def newConstant (args : Args) : Effect (Payload ν) InvokeError Value := do
  let v ← Attempt.ofExcept (args.get 0)
  let l ← Attempt.ofExcept (literal v)
  new types.expr (.expr (.constant l))

def exprDecl : TypeDecl (Payload ν) :=
  .ofNative "Meta.Expr" types.expr [
    .static "construct" [.native types.names, .native types.exprs] (newConstruct types),
    .static "call" [.native types.names, .native types.exprs] (newStatic types),
    .static "invoke" [.native types.names, .native types.expr, .native types.exprs]
      (newInvoke types),
    .static "variable" [.int] (newResult types),
    .static "constant" [.any] (newConstant types)]

def library : Except MalformedName (Module (Payload ν)) :=
  Module.ofDecls "bootgram.meta"
    [grammarDecl types, ruleDecl types, namesDecl types, exprsDecl types, exprDecl types]

end Part

end ActionGrammar
