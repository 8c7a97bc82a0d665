import ActionGrammar.GrammarText.Scanner

/-! # The lexer of grammar text

Blanks are dropped, and the literals of symbols, strings and numbers are
decoded. Stretches that hold no token become garbage, and so do numbers that
do not fit.
-/

namespace ActionGrammar.GrammarText

/-- Undoes the escapes of quotes. A backslash before any other character stands for itself. -/
def unescape : List Char → List Char
  | [] => []
  | '\\' :: '"' :: cs => '"' :: unescape cs
  | '\\' :: c :: cs => '\\' :: c :: unescape cs
  | c :: cs => c :: unescape cs

def inner (cs : List Char) : List Char := (cs.drop 1).dropLast

def readInt (cs : List Char) : Int :=
  match cs with
  | '-' :: ds => -(Decimal.natOfDigits ds : Int)
  | ds => Decimal.natOfDigits ds

def toInt64? (n : Int) : Option Int64 :=
  if Int64.minValue.toInt ≤ n && n ≤ Int64.maxValue.toInt then some (Int64.ofInt n) else none

def symbolName (cs : List Char) : String :=
  String.ofList <|
    match cs with
    | '\'' :: _ => inner cs
    | _ => cs

/-- The kind of a slice and what it stands for. Keywords are told from symbols, integers
beyond 64 bits are doubles, and a reference to a result must fit. -/
def decode? : Kind → List Char → Option (Kind × Option Literal)
  | .symbol, cs =>
    if cs = "new".toList then some (.new, none)
    else if cs = "static".toList then some (.static, none)
    else some (.symbol, some (.str (symbolName cs)))
  | .str, cs => some (.str, some (.str (String.ofList (unescape (inner cs)))))
  | .int, cs =>
    match toInt64? (readInt cs) with
    | some n => some (.int, some (.int n))
    | none => (Decimal.readFloat? (String.ofList cs)).map fun x => (.double, some (.double x))
  | .double, cs =>
    (Decimal.readFloat? (String.ofList cs)).map fun x => (.double, some (.double x))
  | .result, cs => (toInt64? (readInt (cs.drop 1))).map fun n => (.result, some (.int n))
  | k, _ => some (k, none)

def close (pending : Option Nat) (stop : Nat) : List Token :=
  pending.toList.map fun start => .garbage start stop

/-- The tokens of slices from `position` on, where a stretch of garbage may be open. -/
def tokensFrom : (position : Nat) → (pending : Option Nat) → List Slice → List Token
  | position, pending, [] => close pending position
  | position, pending, s :: ss =>
    let stop := position + s.size
    match s.kind with
    | none => tokensFrom stop (some (pending.getD position)) ss
    | some .blank => close pending position ++ tokensFrom stop none ss
    | some k =>
      close pending position ++
        match decode? k s.chars with
        | some (k, payload) => ⟨k, position, stop, payload⟩ :: tokensFrom stop none ss
        | none => tokensFrom stop (some position) ss

def lex (source : String) : List Token := tokensFrom 0 none (slices source.toList)

def firstGarbage? (tokens : List Token) : Option Token := tokens.find? (·.kind == .garbage)

def tokenize : Lexer Token := fun source =>
  let tokens := lex source
  match firstGarbage? tokens with
  | some t => .error ⟨t.start⟩
  | none => .ok tokens.toArray

end ActionGrammar.GrammarText
