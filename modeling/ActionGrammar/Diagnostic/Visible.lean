import ActionGrammar.Text.Width

/-! # Visible text

What an excerpt shows for a character. Tabs become four spaces, control
characters their pictures, and marks that change the direction of the text are
made visible, so that columns can be counted.
-/

namespace ActionGrammar.Visible

def spaces : CharClass := ⟨
  [0x09, 0x0e, 0x20, 0x21, 0x85, 0x86, 0xa0, 0xa1, 0x1680, 0x1681, 0x2000, 0x200b, 0x2028, 0x202a,
   0x202f, 0x2030, 0x205f, 0x2060, 0x3000, 0x3001]⟩

def isSpace (c : Char) : Bool := spaces.contains c

def isDirectional (c : Char) : Bool :=
  (0x202a ≤ c.toNat && c.toNat ≤ 0x202e) || (0x2066 ≤ c.toNat && c.toNat ≤ 0x2069)

def isControl (c : Char) : Bool := c.toNat < 0x20 || c.toNat == 0x7f

def picture (c : Char) : Char :=
  if c.toNat == 0x7f then '␡' else Char.ofNat (0x2400 + c.toNat)

def shown (c : Char) : List Char :=
  if c == '\t' then [' ', ' ', ' ', ' ']
  else if c == '\n' then [c]
  else if isControl c then [picture c]
  else if c == '\u200d' then []
  else if isDirectional c then ['\ufffd']
  else [c]

def text (cs : List Char) : List Char := cs.flatMap shown

def width (c : Char) : Nat :=
  if c == '\t' then 4
  else if isControl c || isDirectional c then 1
  else displayWidth c

def columns : List Char → Nat
  | [] => 0
  | c :: cs => width c + columns cs

end ActionGrammar.Visible
