/-! # Decimal numbers

A decimal is a significand times a power of ten. Every decimal has a nearest
double; text is read as a decimal first and rounded once.
-/

namespace ActionGrammar

/-- The number `significand * 10 ^ exponent`. -/
structure Decimal where
  significand : Nat
  exponent : Int
  deriving DecidableEq, Repr

def digitCount (n : Nat) : Nat := (Nat.toDigits 10 n).length

namespace Decimal

def infinity : Float := Float.ofBits 0x7ff0000000000000

def notANumber : Float := Float.ofBits 0x7ff8000000000000

/-- The nearest double, ties to even. Decimals of `10 ^ 310` and more overflow and those
below `10 ^ (-330)` vanish, so the power of ten stays small. -/
def toFloat (d : Decimal) : Float :=
  if d.significand = 0 then Float.ofBits 0
  else
    let top := d.exponent + digitCount d.significand
    if top > 310 then infinity
    else if top < -330 then Float.ofBits 0
    else Float.ofScientific d.significand (d.exponent < 0) d.exponent.natAbs

def natOfDigits (ds : List Char) : Nat :=
  ds.foldl (fun n c => n * 10 + (c.toNat - '0'.toNat)) 0

/-- Digits with a point before the last `fraction.length` of them. -/
def ofDigits (whole fraction : List Char) (exponent : Int) : Decimal :=
  ⟨natOfDigits (whole ++ fraction), exponent - fraction.length⟩

def readExponent? : List Char → Option Int
  | '-' :: ds => if ds.isEmpty || !ds.all Char.isDigit then none else some (-(natOfDigits ds : Int))
  | '+' :: ds => if ds.isEmpty || !ds.all Char.isDigit then none else some (natOfDigits ds)
  | ds => if ds.isEmpty || !ds.all Char.isDigit then none else some (natOfDigits ds)

/-- Digits with an optional point and exponent. At least one digit stands before the
exponent, on either side of the point. -/
def readUnsigned? (cs : List Char) : Option Decimal :=
  let whole := cs.takeWhile Char.isDigit
  let afterWhole := cs.dropWhile Char.isDigit
  let (fraction, rest) :=
    match afterWhole with
    | '.' :: ds => (ds.takeWhile Char.isDigit, ds.dropWhile Char.isDigit)
    | _ => ([], afterWhole)
  if whole.isEmpty && fraction.isEmpty then none
  else
    match rest with
    | [] => some (ofDigits whole fraction 0)
    | e :: ds =>
      if e = 'e' || e = 'E' then (readExponent? ds).map (ofDigits whole fraction)
      else none

def readMagnitude? (cs : List Char) : Option Float :=
  let word := String.ofList (cs.map Char.toLower)
  if word = "inf" || word = "infinity" then some infinity
  else if word = "nan" then some notANumber
  else (readUnsigned? cs).map toFloat

/-- The double written by `text`: a decimal, `inf`, `infinity` or `nan`, with an optional sign. -/
def readFloat? (text : String) : Option Float :=
  match text.toList with
  | '-' :: cs => (readMagnitude? cs).map fun x => -x
  | '+' :: cs => readMagnitude? cs
  | cs => readMagnitude? cs

end Decimal

end ActionGrammar
