import ActionGrammar.Text.GraphemeExtend
import ActionGrammar.Text.Ignorable
import ActionGrammar.Text.Unprintable

/-! # Quoted text

A string is shown between double quotes, with an escape for each character
that would not show as itself.
-/

namespace ActionGrammar.Quoted

/-- Characters from the space to the tilde show as themselves, quote and backslash apart. -/
def needsCode (c : Char) : Bool :=
  if c.toNat < 0x20 then true
  else if c.toNat < 0x7f then false
  else
    CharClass.unprintable.contains c || CharClass.graphemeExtend.contains c ||
      CharClass.ignorable.contains c

def code (c : Char) : List Char :=
  '\\' :: 'u' :: '\x7b' :: Nat.toDigits 16 c.toNat ++ ['\x7d']

def escape (c : Char) : List Char :=
  match c with
  | '\x00' => ['\\', '0']
  | '\t' => ['\\', 't']
  | '\r' => ['\\', 'r']
  | '\n' => ['\\', 'n']
  | '"' => ['\\', '"']
  | '\\' => ['\\', '\\']
  | c => if needsCode c then code c else [c]

def encode (s : String) : String :=
  String.ofList ('"' :: s.toList.flatMap escape ++ ['"'])

end ActionGrammar.Quoted
