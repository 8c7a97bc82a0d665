import ActionGrammar.Diagnostic.Visible

/-! # Rows of an excerpt

A row has one character a cell, drawn in some ink. It is put together from
pieces of text at columns. With colors every run of one ink stands between
escape sequences, without them the ink does not show.
-/

namespace ActionGrammar

inductive Ink where
  | plain
  | title
  | frame
  | error
  deriving DecidableEq, Repr

def Ink.escape : Ink → String
  | plain => ""
  | title => "\x1b[1m"
  | frame => "\x1b[1m\x1b[94m"
  | error => "\x1b[1m\x1b[91m"

def Ink.reset : Ink → String
  | plain => ""
  | _ => "\x1b[0m"

structure Piece where
  column : Nat
  ink : Ink
  chars : List Char

def Piece.shift (offset : Nat) (p : Piece) : Piece := { p with column := offset + p.column }

abbrev Row := List (Ink × Char)

namespace Row

/-- The cells from a column on, of pieces at ascending columns. Blanks fill the room before a
piece, and a piece without text takes no room. -/
def ofPiecesFrom : (column : Nat) → List Piece → Row
  | _, [] => []
  | column, ⟨_, _, []⟩ :: ps => ofPiecesFrom column ps
  | column, ⟨place, ink, c :: cs⟩ :: ps =>
    List.replicate (place - column) (.plain, ' ') ++ (c :: cs).map (ink, ·) ++
      ofPiecesFrom (max column place + (c :: cs).length) ps

def ofPieces (ps : List Piece) : Row := ofPiecesFrom 0 ps

/-- Puts `text` in place of the cells from `start` to `stop`. A row that does not reach that far
stays as it is. -/
def elide (text : List Char) (start stop : Nat) (row : Row) : Row :=
  if start ≤ stop && stop ≤ row.length then
    row.take start ++ text.map (.frame, ·) ++ row.drop stop
  else row

def paint : (current : Ink) → Row → String
  | current, [] => current.reset
  | current, (ink, c) :: rest =>
    if ink = current then c.toString ++ paint current rest
    else current.reset ++ ink.escape ++ c.toString ++ paint ink rest

def text (colored : Bool) (row : Row) : String :=
  if colored then paint .plain row else String.ofList (row.map (·.2))

end Row

end ActionGrammar
