import ActionGrammar.Diagnostic.Visible
import ActionGrammar.Text.Bytes

/-! # Lines of a text

A text is a list of lines with their places in it. A byte position lies in the
line that holds it, at some character and some column of display. Positions
behind a last line break lie in the line before it.
-/

namespace ActionGrammar

structure Line where
  number : Nat
  /-- The characters before the line break. -/
  chars : List Char
  start : Nat
  /-- Where the next line starts. -/
  stop : Nat

namespace Line

/-- Pieces of a text between newlines, each with whether a newline ends it. A newline at the
end of the text starts no piece. -/
def pieces : List Char → List (List Char × Bool)
  | [] => []
  | '\n' :: cs => ([], true) :: pieces cs
  | c :: cs =>
    match pieces cs with
    | [] => [([c], false)]
    | (p, ended) :: ps => (c :: p, ended) :: ps

/-- A carriage return before a newline belongs to the line break. -/
def withoutReturn (cs : List Char) : List Char :=
  if cs.getLast? = some '\r' then cs.dropLast else cs

def numbered (number start : Nat) : List (List Char × Bool) → List Line
  | [] => []
  | (p, ended) :: ps =>
    let stop := start + byteSize p + (if ended then 1 else 0)
    ⟨number, if ended then withoutReturn p else p, start, stop⟩ ::
      numbered (number + 1) stop ps

def ofText (source : String) : Line × List Line :=
  match numbered 1 0 (pieces source.toList) with
  | [] => (⟨1, [], 0, 0⟩, [])
  | l :: ls => (l, ls)

end Line

structure Place where
  line : Line
  char : Nat
  column : Nat

namespace Place

def find (lines : Line × List Line) (position : Nat) : Line :=
  let all := lines.1 :: lines.2
  (all.find? fun l => l.start ≤ position && position < l.stop).getD (all.getLastD lines.1)

def inLine (l : Line) (position : Nat) : Place :=
  let before := takeBytes (position - l.start) l.chars
  ⟨l, before.length, Visible.columns before⟩

def isPastBreak (l : Line) (position : Nat) : Bool := l.start + byteSize l.chars < position

/-- Where something starts. Within a line break it is counted as one character further. -/
def ofStart (lines : Line × List Line) (position : Nat) : Place :=
  let l := find lines position
  let p := inLine l position
  if isPastBreak l position then { p with char := p.char + 1 } else p

/-- Where something ends that started at `start`. In another line, an end within the line break
is shown one column further. -/
def ofStop (lines : Line × List Line) (start : Place) (position : Nat) : Place :=
  let l := find lines position
  let p := inLine l position
  if l.number ≠ start.line.number && isPastBreak l position then
    { p with char := p.char + 1, column := p.column + 1 }
  else p

end Place

end ActionGrammar
