import ActionGrammar.Decimal.Shortest

/-! # The text of a double

A double is written with the fewest digits that read back, in positional
notation from `10 ^ (-4)` up to `10 ^ 16` and with an exponent outside that range.
-/

namespace ActionGrammar.Decimal

/-- How doubles are written. A number `0.d₁d₂… * 10 ^ p` is positional for `p` from
`lowestPoint` to `highestPoint`. -/
structure Style where
  lowestPoint : Int
  highestPoint : Int
  exponentMark : String
  notANumber : String
  infinity : String

/-- Positional from `10 ^ (-4)` to below `10 ^ 16`, there with at least one digit after the
point. -/
def Style.standard : Style := ⟨-3, 16, "e", "NaN", "inf"⟩

def significantDigits (d : Decimal) : List Char :=
  ((Nat.toDigits 10 d.significand).reverse.dropWhile (· == '0')).reverse

/-- The exponent `p` for which a positive decimal is `0.d₁d₂… * 10 ^ p`. -/
def point (d : Decimal) : Int := d.exponent + digitCount d.significand

def zeros (n : Int) : List Char := List.replicate n.toNat '0'

def positional (digits : List Char) (p : Int) : List Char :=
  if p ≤ 0 then '0' :: '.' :: zeros (-p) ++ digits
  else if digits.length ≤ p then digits ++ zeros (p - digits.length) ++ ['.', '0']
  else digits.take p.toNat ++ '.' :: digits.drop p.toNat

def scientific (mark : String) (digits : List Char) (p : Int) : List Char :=
  let fraction := digits.drop 1
  digits.take 1 ++ (if fraction.isEmpty then [] else '.' :: fraction) ++ mark.toList ++
    (toString (p - 1)).toList

def writePositive (style : Style) (d : Decimal) : String :=
  let digits := significantDigits d
  let p := point d
  String.ofList <|
    if style.lowestPoint ≤ p && p ≤ style.highestPoint then positional digits p
    else scientific style.exponentMark digits p

def isNegative (x : Float) : Bool := 0x8000000000000000 ≤ x.toBits.toNat

def writeMagnitude (style : Style) (x : Float) : String :=
  if x.toBits = 0 then "0.0"
  else if x == infinity then style.infinity
  else writePositive style (shortest x)

def ofFloat (x : Float) : String :=
  if x.isNaN then Style.standard.notANumber
  else if isNegative x then "-" ++ writeMagnitude .standard (-x)
  else writeMagnitude .standard x

end ActionGrammar.Decimal
