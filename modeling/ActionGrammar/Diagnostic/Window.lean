import ActionGrammar.Diagnostic.Row

/-! # Windows

The lines of an excerpt are cut to the width of a terminal, all to the same
columns. A window leaves out deep indentation and, where that is not enough,
stays near the marked columns. Three dots stand where a line was cut.
-/

namespace ActionGrammar

/-- What is to be shown: the least indentation of the lines, the width of the widest one, and
the columns that the marks lie between. -/
structure Extent where
  indentation : Nat
  width : Nat
  leftmost : Nat
  rightmost : Nat

namespace Extent

def indentationOf (cs : List Char) : Nat :=
  ((cs.takeWhile Visible.isSpace).map fun c => if c == '\t' then 4 else 1).foldl (· + ·) 0

/-- What is marked does not count as indentation. -/
def ofLines (lines : List (List Char)) (leftmost rightmost : Nat) : Extent where
  indentation :=
    let inked := lines.filter fun cs => !cs.all Visible.isSpace
    min leftmost ((inked.map indentationOf).min?.getD 0)
  width := (lines.map Visible.columns).foldl max 0
  leftmost
  rightmost

end Extent

/-- The columns from `left` to `right`, of a terminal that shows `capacity` of them. -/
structure Window where
  left : Nat
  right : Nat
  capacity : Nat

namespace Window

def terminal : Nat := 140

def dots : List Char := ['.', '.', '.']

/-- Six columns next to the indentation and to the marks are kept, with room for the dots. -/
def ofExtent (e : Extent) (capacity : Nat) : Window :=
  let indentation := e.indentation - 6
  let first := e.leftmost - 6
  let last := e.rightmost + 6
  let left := if 20 < indentation then indentation - 16 else 0
  let right := max e.width left
  if right - left ≤ capacity then ⟨left, right, capacity⟩
  else if last - indentation ≤ capacity then ⟨indentation, indentation + capacity, capacity⟩
  else if last - first ≤ capacity then
    let left := first - (capacity - (last - first)) / 2
    ⟨left, left + capacity, capacity⟩
  else ⟨first, last, capacity⟩

def cover : (columns : Nat) → List Char → Nat
  | 0, _ => 0
  | _, [] => 0
  | n + 1, c :: cs => cover (n + 1 - Visible.width c) cs + 1

def fitting : (columns : Nat) → List Char → List Char
  | _, [] => []
  | n, c :: cs =>
    if Visible.width c ≤ n then c :: fitting (n - Visible.width c) cs else []

def rightEnd (w : Window) (width : Nat) : Nat :=
  if width - w.left ≤ w.capacity then width else min width w.right

def dotEnd (column : Nat) (shown : List Char) (count : Nat) : List Piece :=
  let kept := shown.length - count
  [⟨column, .plain, shown.take kept⟩, ⟨column + kept, .frame, dots⟩,
   ⟨column + kept + dots.length, .plain, shown.drop (kept + dots.length)⟩]

/-- What is shown of a line, and the column of the line that is shown first. -/
structure Cut where
  pieces : List Piece
  first : Nat

def cut (w : Window) (line : List Char) : Cut :=
  let width := Visible.columns line
  let left := min w.left width
  let right := w.rightEnd width
  let skipped := cover left line
  let code := fitting (right - left) (line.drop skipped)
  let dotted := if 0 < w.left then cover dots.length code else 0
  let column := Visible.columns (code.take dotted)
  let shown := code.drop dotted
  let beginning := if 0 < w.left then [⟨0, .frame, dots⟩] else []
  let ending :=
    if right < width then dotEnd column shown (cover dots.length code.reverse)
    else [⟨column, .plain, shown⟩]
  ⟨beginning ++ ending, Visible.columns (line.take skipped)⟩

/-- The middle of a stretch that is more than twice as wide as the terminal is left out: all but
a third of the terminal at either end. -/
def elide (w : Window) (start stop : Nat) (row : Row) : Row :=
  let kept := max (w.capacity / 3) 5
  row.elide dots (start + kept) (stop - kept)

end Window

end ActionGrammar
