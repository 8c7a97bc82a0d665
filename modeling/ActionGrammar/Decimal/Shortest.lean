import ActionGrammar.Decimal.Basic

/-! # The shortest decimal of a double

Among the decimals that read back as a given double, one with the fewest
digits is chosen, and of two such the one nearer to the double's exact value.
-/

namespace ActionGrammar.Decimal

def binaryParts (x : Float) : Nat × Int :=
  let bits := x.toBits.toNat
  let exponent : Nat := bits / 0x10000000000000 % 0x800
  let fraction : Nat := bits % 0x10000000000000
  if exponent = 0 then (fraction, -1074)
  else (0x10000000000000 + fraction, Int.ofNat exponent - 1075)

def ratio (x : Float) : Nat × Nat :=
  match binaryParts x with
  | (m, .ofNat e) => (m * Nat.pow 2 e, 1)
  | (m, .negSucc e) => (m, Nat.pow 2 (e + 1))

/-- Every double has a finite decimal expansion: `1 / 2 ^ k = 5 ^ k / 10 ^ k`. -/
def exact (x : Float) : Decimal :=
  match binaryParts x with
  | (m, .ofNat e) => ⟨m * Nat.pow 2 e, 0⟩
  | (m, .negSucc e) => ⟨m * Nat.pow 5 (e + 1), .negSucc e⟩

/-- The exponent `p` with `10 ^ (p - 1) ≤ num / den < 10 ^ p`. -/
def leadingExponent (num den : Nat) : Int :=
  if den ≤ num then digitCount (num / den)
  else
    let shift := digitCount den - digitCount num
    if den ≤ num * Nat.pow 10 shift then 1 - (shift : Int) else -(shift : Int)

/-- The better of the two multiples of `10 ^ k` around `num / den`, if one reads back as `x`.
Of two equally near ones the larger is taken. -/
def neighbour? (x : Float) (num den : Nat) (k : Int) : Option Decimal :=
  let num := if k < 0 then num * Nat.pow 10 k.natAbs else num
  let den := if k < 0 then den else den * Nat.pow 10 k.natAbs
  let below : Decimal := ⟨num / den, k⟩
  let above : Decimal := ⟨num / den + 1, k⟩
  match below.toFloat == x, above.toFloat == x with
  | true, true => some (if 2 * (num % den) < den then below else above)
  | true, false => some below
  | false, true => some above
  | false, false => none

/-- Seventeen digits always suffice; the exact value stands for the case that they do not. -/
def shortest (x : Float) : Decimal :=
  let (num, den) := ratio x
  let p := leadingExponent num den
  ((List.range 17).findSome? fun (n : Nat) => neighbour? x num den (p - n - 1)).getD (exact x)

end ActionGrammar.Decimal
