import ActionGrammar.Diagnostic.Basic
import ActionGrammar.Diagnostic.Line
import ActionGrammar.Diagnostic.Window

/-! # Excerpts

A diagnostic is shown with the lines it is about. Within one line the stretch
is underlined by carets; over several lines a bracket runs along them, of which
at most the first few and the last are shown.
-/

namespace ActionGrammar

namespace Excerpt

def titleRows (message : String) : List Row :=
  match (Visible.text message.toList).splitOn '\n' with
  | [] => []
  | first :: rest =>
    .ofPieces [⟨0, .error, "error".toList⟩, ⟨5, .title, ": ".toList ++ first⟩] ::
      rest.map fun cs => .ofPieces [⟨0, .plain, List.replicate 7 ' '⟩, ⟨7, .title, cs⟩]

/-- Where the frame stands, behind line numbers of `width` digits, and what is seen through it. -/
structure Layout where
  width : Nat
  bracketed : Bool
  extent : Extent

namespace Layout

variable (l : Layout)

def bar : Piece := ⟨l.width + 1, .frame, ['|']⟩

def bracketColumn : Nat := l.width + 3

def codeColumn : Nat := if l.bracketed then l.width + 5 else l.width + 3

def bracket : Piece := ⟨l.bracketColumn, .error, ['|']⟩

def pathRow (path : String) (p : Place) : Row :=
  .ofPieces [⟨l.width, .frame, "--> ".toList⟩,
    ⟨l.width + 4, .plain, (s!"{path}:{p.line.number}:{p.char + 1}").toList⟩]

def window : Window := .ofExtent l.extent (Window.terminal - l.codeColumn)

def cut (line : Line) : Window.Cut := l.window.cut (Visible.text line.chars)

def shownAt (line : Line) (column : Nat) : Nat := l.codeColumn + column - (l.cut line).first

/-- The number of a line. One that is too long for the frame moves up to the bar. -/
def number (line : Line) : Piece :=
  let digits := (toString line.number).toList
  ⟨0, .frame, List.replicate (l.width - digits.length) ' ' ++ digits⟩

def codeRow (marks : List Piece) (line : Line) : Row :=
  .ofPieces (l.number line :: l.bar :: marks ++
    (l.cut line).pieces.map (Piece.shift l.codeColumn))

def caretRow (line : Line) (start stop : Nat) : Row :=
  .ofPieces [l.bar, ⟨l.shownAt line start, .error, List.replicate (stop - start) '^'⟩]

/-- From the bracket, drawn as `hinge`, an arm that points at a column. -/
def armRow (hinge : Char) (line : Line) (column : Nat) : Row :=
  let reach := l.shownAt line column - (l.bracketColumn + 1)
  .ofPieces [l.bar, ⟨l.bracketColumn, .error, hinge :: List.replicate reach '_' ++ ['^']⟩]

def elision : Row := .ofPieces [⟨0, .frame, Window.dots⟩, l.bracket]

end Layout

def trim (cs : List Char) : List Char :=
  ((cs.dropWhile Visible.isSpace).reverse.dropWhile Visible.isSpace).reverse

/-- Blank lines, comments and lines of one bracket are not worth showing. -/
def isTelling (line : Line) : Bool :=
  let s := trim line.chars
  let isComment := "//".toList.isPrefixOf s &&
    !("///".toList.isPrefixOf s || "//!".toList.isPrefixOf s)
  let isBracket := s ∈ ["", "\x7b", "\x7d", "(", ")", "[", "]"].map String.toList
  !isComment && !isBracket

/-- The numbers of the lines shown between the first and the last: up to three of the first
ones, as far as they are telling, and the last but one. -/
def innerLines (lines : List Line) (first last : Nat) : List Nat :=
  let middle := min (first + 4) last
  let telling (n : Nat) : Bool := (lines.find? (·.number == n)).any isTelling
  let candidates := (List.range' first (middle - first)).filter telling
  let limit := (candidates.getLast?).elim first (· + 1)
  let ending := if middle < last - 1 && telling (last - 1) then [last - 1] else []
  List.range' (first + 1) (limit - (first + 1)) ++ ending

/-- The rows of lines inside a bracket. A single line that was left out is shown after all. -/
def innerRows (l : Layout) (lines : List Line) : (shown : Nat) → List Nat → List Row
  | _, [] => []
  | shown, n :: ns =>
    let row (k : Nat) : List Row :=
      ((lines.find? (·.number == k)).map (l.codeRow [l.bracket])).toList
    let gap : List Row :=
      if n - shown = 2 then row (shown + 1) else if n - shown > 2 then [l.elision] else []
    gap ++ row n ++ innerRows l lines n ns

/-- A bracket from `start` to `stop`. It opens in front of the line if only blanks precede. -/
def bracketRows (l : Layout) (lines : List Line) (inner : List Nat) (start stop : Place) :
    List Row :=
  let opening : List Row :=
    if ((Visible.text start.line.chars).take start.column).all Visible.isSpace then
      [l.codeRow [⟨l.bracketColumn, .error, ['/']⟩] start.line]
    else [l.codeRow [] start.line, l.armRow ' ' start.line start.column]
  opening ++ innerRows l lines start.line.number (inner ++ [stop.line.number]) ++
    [l.armRow '|' stop.line (stop.column - 1)]

def head (l : Layout) (path : Option String) (start : Place) : List Row :=
  (path.map fun p => l.pathRow p start).toList ++ [.ofPieces [l.bar]]

/-- The rows for a stretch within one line. An empty one still gets a caret. -/
def lineRows (width : Nat) (path : Option String) (start stop : Place) : List Row :=
  let line := start.line
  let right := if start.column = stop.column then stop.column + 1 else stop.column
  let l : Layout := ⟨width, false, .ofLines [line.chars] start.column right⟩
  let rows := [l.codeRow [] line, l.caretRow line start.column right]
  head l path start ++
    if 2 * l.window.capacity < right - start.column then
      rows.map (l.window.elide (l.shownAt line start.column) (l.shownAt line right))
    else rows

def linesRows (lines : List Line) (width : Nat) (path : Option String) (start stop : Place) :
    List Row :=
  let inner := innerLines lines start.line.number stop.line.number
  let shown := start.line :: lines.filter (inner.contains ·.number) ++ [stop.line]
  let leftmost := min start.column (stop.column - 1)
  let rightmost := max (start.column + 1) stop.column
  let l : Layout := ⟨width, true, .ofLines (shown.map Line.chars) leftmost rightmost⟩
  head l path start ++ bracketRows l lines inner start stop

/-- The rows below the title. The frame is as wide as the number of the last line that the
stretch has characters or line breaks of. -/
def bodyRows (source : String) (path : Option String) (first last : Nat) : List Row :=
  let lines := Line.ofText source
  let start := Place.ofStart lines first
  let stop := if first = last then start else Place.ofStop lines start last
  let width := (toString (max 1 (Line.pieces (takeBytes last source.toList)).length)).length
  if start.line.number = stop.line.number then lineRows width path start stop
  else linesRows (lines.1 :: lines.2) width path start stop

end Excerpt

namespace Diagnostic

variable (d : Diagnostic)

/-- Where the stretch ends that is shown. An empty one is widened to one byte, unless the text ends
there. -/
def shownStop (source : String) : Nat :=
  if d.start = d.stop then min (d.start + 1) source.utf8ByteSize else d.stop

def render (source path : Option String) (colored : Bool) : String :=
  match source with
  | none => d.summary
  | some source =>
    let body := Excerpt.bodyRows source path d.start (d.shownStop source)
    "\n".intercalate ((Excerpt.titleRows d.message ++ body).map (Row.text colored))

end Diagnostic

end ActionGrammar
