/-! # Character classes by boundaries

A class of characters is given by the ascending list of code points at which
membership changes: a character belongs to the class if an odd number of
boundaries lie at or below it.
-/

namespace ActionGrammar

structure CharClass where
  boundaries : List Nat

namespace CharClass

def parityBelow (n : Nat) : List Nat → Bool
  | [] => false
  | b :: bs => if b ≤ n then !parityBelow n bs else false

def contains (k : CharClass) (c : Char) : Bool := parityBelow c.toNat k.boundaries

end CharClass

end ActionGrammar
