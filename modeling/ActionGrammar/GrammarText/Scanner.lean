import ActionGrammar.GrammarText.Token

/-! # Scanning grammar text

The text is cut into slices. A slice is the longest match of a token's pattern
at its place. Where nothing matches, it is the longest stretch, of at least one
character, that some pattern could still have extended to a match.
-/

namespace ActionGrammar.GrammarText

inductive Progress where
  | start
  | mark (k : Kind)
  | word
  | quote
  | quotedChar
  | quotedSymbol
  | string
  | stringEscape
  | stringEnd
  | minus
  | digits
  | point
  | fraction
  | dollar
  | index
  | blanks
  deriving DecidableEq, Repr

def mark? : Char → Option Kind
  | ':' => some .colon
  | ';' => some .semicolon
  | ',' => some .comma
  | '(' => some .leftParen
  | ')' => some .rightParen
  | '\x7b' => some .leftBrace
  | '\x7d' => some .rightBrace
  | '.' => some .dot
  | _ => none

/-- Space, tab, carriage return, newline and form feed. -/
def isBlank (c : Char) : Bool :=
  c == ' ' || c == '\t' || c == '\r' || c == '\n' || c == '\x0c'

def isWordStart (c : Char) : Bool := c == '_' || c.isAlpha

def isWordChar (c : Char) : Bool := c == '_' || c.isAlphanum

namespace Progress

def step : Progress → Char → Option Progress
  | start, c =>
    match mark? c with
    | some k => some (mark k)
    | none =>
      if isWordStart c then some word
      else if c == '\'' then some quote
      else if c == '"' then some string
      else if c == '-' then some minus
      else if c.isDigit then some digits
      else if c == '$' then some dollar
      else if isBlank c then some blanks
      else none
  | mark _, _ => none
  | word, c => if isWordChar c then some word else none
  | quote, c => if c == '\'' then none else some quotedChar
  | quotedChar, c => if c == '\'' then some quotedSymbol else none
  | quotedSymbol, _ => none
  | string, c => some (if c == '"' then stringEnd else if c == '\\' then stringEscape else string)
  | stringEscape, c => if c == '\n' then none else some string
  | stringEnd, _ => none
  | minus, c => if c.isDigit then some digits else none
  | digits, c => if c.isDigit then some digits else if c == '.' then some point else none
  | point, c => if c.isDigit then some fraction else none
  | fraction, c => if c.isDigit then some fraction else none
  | dollar, c => if c.isDigit then some index else none
  | index, c => if c.isDigit then some index else none
  | blanks, c => if isBlank c then some blanks else none

/-- The kind of token that has been matched, if the pattern is complete. -/
def accepts : Progress → Option Kind
  | mark k => some k
  | word => some .symbol
  | quotedSymbol => some .symbol
  | stringEnd => some .str
  | digits => some .int
  | fraction => some .double
  | index => some .result
  | blanks => some .blank
  | _ => none

end Progress

/-- The longest match so far with its length, and how many characters could be followed. -/
structure Reach where
  matched : Option (Kind × Nat)
  count : Nat
  deriving DecidableEq

def Reach.extend (reach : Reach) (accepted : Option Kind) : Reach :=
  ⟨(accepted.map (·, reach.count + 1)).or reach.matched, reach.count + 1⟩

def follow (p : Progress) (reach : Reach) : List Char → Reach
  | [] => reach
  | c :: cs =>
    match p.step c with
    | none => reach
    | some next => follow next (reach.extend next.accepts) cs

/-- A stretch of text, and the kind of token it is, if it is one. -/
structure Slice where
  kind : Option Kind
  chars : List Char
  deriving DecidableEq

def firstSlice (cs : List Char) : Slice :=
  match follow .start ⟨none, 0⟩ cs with
  | ⟨some (k, n), _⟩ => ⟨some k, cs.take n⟩
  | ⟨none, n⟩ => ⟨none, cs.take (max n 1)⟩

def slicesAfter : (skip : Nat) → List Char → List Slice
  | _, [] => []
  | skip + 1, _ :: cs => slicesAfter skip cs
  | 0, c :: cs =>
    let s := firstSlice (c :: cs)
    s :: slicesAfter (s.chars.length - 1) cs

def slices (cs : List Char) : List Slice := slicesAfter 0 cs

def Slice.size (s : Slice) : Nat := byteSize s.chars

namespace Reach

def Covers (reach : Reach) : Prop := ∀ k n, reach.matched = some (k, n) → 0 < n ∧ n ≤ reach.count

theorem Covers.extend {reach : Reach} (h : reach.Covers) (accepted : Option Kind) :
    (reach.extend accepted).Covers := by
  intro k n hm
  cases accepted with
  | none => exact ⟨(h k n hm).1, Nat.le_succ_of_le (h k n hm).2⟩
  | some a =>
    obtain ⟨-, rfl⟩ : a = k ∧ reach.count + 1 = n := by simpa [Reach.extend] using hm
    exact ⟨Nat.succ_pos _, Nat.le_refl _⟩

end Reach

theorem covers_follow {p : Progress} {reach : Reach} (h : reach.Covers) (cs : List Char) :
    (follow p reach cs).Covers := by
  induction cs generalizing p reach with
  | nil => exact h
  | cons c cs ih =>
    rw [follow]
    split
    · exact h
    · exact ih (h.extend _)

theorem count_follow_le (p : Progress) (reach : Reach) (cs : List Char) :
    (follow p reach cs).count ≤ reach.count + cs.length := by
  induction cs generalizing p reach with
  | nil => exact Nat.le_refl _
  | cons c cs ih =>
    rw [follow]
    split
    · exact Nat.le_add_right ..
    · rename_i next _
      have := ih next (reach.extend next.accepts)
      simp only [Reach.extend, List.length_cons] at this ⊢
      omega

theorem chars_firstSlice {cs : List Char} (h : cs ≠ []) :
    ∃ n, n < cs.length ∧ (firstSlice cs).chars = cs.take (n + 1) := by
  have hpos : 0 < cs.length := List.length_pos_iff.2 h
  have hcovers : (follow .start ⟨none, 0⟩ cs).Covers := covers_follow (by simp [Reach.Covers]) cs
  have hcount := count_follow_le .start ⟨none, 0⟩ cs
  rw [firstSlice]
  split
  · rename_i k n m heq
    rw [heq] at hcovers hcount
    have hn := hcovers k n rfl
    simp only [Nat.zero_add] at hn hcount
    exact ⟨n - 1, by omega, by rw [Nat.sub_add_cancel hn.1]⟩
  · rename_i n heq
    rw [heq] at hcount
    simp only [Nat.zero_add] at hcount
    exact ⟨max n 1 - 1, by omega, by rw [Nat.sub_add_cancel (Nat.le_max_right n 1)]⟩

theorem flatMap_chars_slicesAfter (skip : Nat) (cs : List Char) :
    (slicesAfter skip cs).flatMap Slice.chars = cs.drop skip := by
  induction cs generalizing skip with
  | nil => cases skip <;> rfl
  | cons c cs ih =>
    cases skip with
    | succ skip => exact ih skip
    | zero =>
      obtain ⟨n, hn, h⟩ := chars_firstSlice (List.cons_ne_nil c cs)
      simp only [slicesAfter, List.flatMap_cons, ih, h, List.length_take, Nat.min_eq_left hn]
      simp

theorem flatMap_chars_slices (cs : List Char) : (slices cs).flatMap Slice.chars = cs :=
  flatMap_chars_slicesAfter 0 cs

end ActionGrammar.GrammarText
