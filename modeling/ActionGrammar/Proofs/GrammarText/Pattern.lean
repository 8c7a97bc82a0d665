import ActionGrammar.Proofs.GrammarText.Lexeme
import Mathlib.Computability.Language
import Mathlib.Tactic.IntervalCases

/-! # The patterns of tokens

Every kind of token has a pattern. Where the scanner has followed the patterns to some point, there
is a language of what is left to be read. At the start it is the pattern itself, and one character
leads from each of these languages to the next, so the scanner accepts what the patterns match.
-/

namespace ActionGrammar.GrammarText

open Progress
open scoped Computability

/-! ### Patterns -/

/-- A pattern, as the language of the texts that it matches. -/
abbrev Pattern : Type := Language Char

def letter (p : Char → Bool) : Pattern := {cs | ∃ c, p c = true ∧ cs = [c]}

/-- `[0-9]+` -/
def number : Pattern := letter Char.isDigit * (letter Char.isDigit)∗

def isPlain (c : Char) : Bool := c != '"' && c != '\\'

/-- `(?:[^"\\]|\\.)*` -/
def quotable : Pattern := (letter isPlain + letter (· == '\\') * letter (· != '\n'))∗

def Kind.pattern : Kind → Pattern
  | .colon => letter (· == ':')
  | .semicolon => letter (· == ';')
  | .comma => letter (· == ',')
  | .leftParen => letter (· == '(')
  | .rightParen => letter (· == ')')
  | .leftBrace => letter (· == '\x7b')
  | .rightBrace => letter (· == '\x7d')
  | .dot => letter (· == '.')
  | .new => {"new".toList}
  | .static => {"static".toList}
  | .symbol =>
    letter isWordStart * (letter isWordChar)∗ +
      letter (· == '\'') * (letter (· != '\'') * letter (· == '\''))
  | .str => letter (· == '"') * (quotable * letter (· == '"'))
  | .int => (1 + letter (· == '-')) * number
  | .double => (1 + letter (· == '-')) * (number * (letter (· == '.') * number))
  | .result => letter (· == '$') * number
  | .blank => letter isBlank * (letter isBlank)∗
  | .garbage => 0

/-- Keywords are told from other symbols when a slice is decoded. -/
def Kind.isKeyword (k : Kind) : Bool := k == .new || k == .static

/-! ### Words of a language, by their first letter -/

section

variable {p : Char → Bool} {L M : Pattern} {c : Char} {cs : List Char}

@[simp] theorem mem_letter : cs ∈ letter p ↔ ∃ c, p c = true ∧ cs = [c] := Iff.rfl

@[simp] theorem nil_mem_mul : [] ∈ L * M ↔ [] ∈ L ∧ [] ∈ M := by
  rw [Language.mem_mul]
  constructor
  · rintro ⟨xs, hxs, ys, hys, h⟩
    obtain ⟨rfl, rfl⟩ := List.append_eq_nil_iff.mp h
    exact ⟨hxs, hys⟩
  · rintro ⟨hL, hM⟩
    exact ⟨[], hL, [], hM, rfl⟩

@[simp] theorem cons_mem_letter_mul : c :: cs ∈ letter p * L ↔ p c = true ∧ cs ∈ L := by
  rw [Language.mem_mul]
  constructor
  · rintro ⟨_, ⟨d, hd, rfl⟩, ys, hys, h⟩
    obtain ⟨rfl, rfl⟩ := List.cons.inj h
    exact ⟨hd, hys⟩
  · rintro ⟨hc, hcs⟩
    exact ⟨[c], ⟨c, hc, rfl⟩, cs, hcs, rfl⟩

theorem mem_letter_mul : cs ∈ letter p * L ↔ ∃ c ds, p c = true ∧ ds ∈ L ∧ cs = c :: ds := by
  cases cs with
  | nil => simp
  | cons c cs => simp

theorem kstar_mul (L M : Pattern) : L∗ * M = M + L * (L∗ * M) := by
  conv_lhs => rw [← Language.one_add_self_mul_kstar_eq_kstar L]
  rw [add_mul, one_mul, mul_assoc]

theorem cons_mem_kstar_mul : c :: cs ∈ L∗ * M ↔ c :: cs ∈ M ∨ c :: cs ∈ L * (L∗ * M) := by
  rw [← Language.mem_add, ← kstar_mul]

theorem cons_mem_kstar_letter : c :: cs ∈ (letter p)∗ ↔ p c = true ∧ cs ∈ (letter p)∗ := by
  rw [← Language.one_add_self_mul_kstar_eq_kstar, Language.mem_add, cons_mem_letter_mul,
    Language.one_add_self_mul_kstar_eq_kstar]
  simp

theorem mem_kstar_letter : cs ∈ (letter p)∗ ↔ ∀ c ∈ cs, p c = true := by
  induction cs with
  | nil => simp [Language.nil_mem_kstar]
  | cons c cs ih => rw [cons_mem_kstar_letter, ih, List.forall_mem_cons]

theorem mem_number : cs ∈ number ↔ cs ≠ [] ∧ ∀ c ∈ cs, c.isDigit = true := by
  cases cs with
  | nil => simp [number]
  | cons c cs => simp [number, mem_kstar_letter]

end

/-! ### What is left to be read -/

theorem mark?_eq_none {c : Char} (h : isWordChar c = true) : mark? c = none := by
  cases hm : mark? c with
  | none => rfl
  | some k =>
    unfold mark? at hm
    split at hm
    case h_9 => cases hm
    all_goals exact absurd h (by decide)

theorem step_start_word {c : Char} (h : isWordStart c = true) : start.step c = some word := by
  have hw : isWordChar c = true := by
    simp only [isWordStart, isWordChar, Char.isAlphanum, Bool.or_eq_true] at h ⊢
    tauto
  simp [step, mark?_eq_none hw, h]

theorem isWordStart_digit {c : Char} (h : c.isDigit = true) : isWordStart c = false := by
  have hrange : 48 ≤ c.toNat ∧ c.toNat ≤ 57 := by
    simpa [Char.isDigit, UInt32.le_iff_toNat_le] using h
  obtain ⟨hmin, hmax⟩ := hrange
  rw [← Char.ofNat_toNat c]
  generalize c.toNat = n at hmin hmax ⊢
  interval_cases n <;> decide

theorem step_start_digit {c : Char} (h : c.isDigit = true) : start.step c = some digits := by
  have hw : isWordChar c = true := by simp [isWordChar, Char.isAlphanum, h]
  have hquote : c ≠ '\'' ∧ c ≠ '"' ∧ c ≠ '-' := by
    refine ⟨?_, ?_, ?_⟩ <;> rintro rfl <;> exact absurd h (by decide)
  simp [step, mark?_eq_none hw, isWordStart_digit h, hquote, h]

/-- Of the patterns of all kinds, what matches for one kind alone. -/
def Pattern.only (L : Pattern) (k k' : Kind) : Pattern := if k = k' then L else 0

/-- The language of what is left to be read of a token of the kind. -/
def Progress.rest : Progress → Kind → Pattern
  | start, k => if k.isKeyword then 0 else k.pattern
  | mark k', k => Pattern.only 1 k' k
  | word, k => (letter isWordChar)∗.only .symbol k
  | quote, k => (letter (· != '\'') * letter (· == '\'')).only .symbol k
  | quotedChar, k => (letter (· == '\'')).only .symbol k
  | quotedSymbol, k => Pattern.only 1 .symbol k
  | string, k => (quotable * letter (· == '"')).only .str k
  | stringEscape, k => (letter (· != '\n') * (quotable * letter (· == '"'))).only .str k
  | stringEnd, k => Pattern.only 1 .str k
  | minus, k => number.only .int k + (number * (letter (· == '.') * number)).only .double k
  | digits, k =>
    (letter Char.isDigit)∗.only .int k +
      ((letter Char.isDigit)∗ * (letter (· == '.') * number)).only .double k
  | point, k => number.only .double k
  | fraction, k => (letter Char.isDigit)∗.only .double k
  | dollar, k => number.only .result k
  | index, k => (letter Char.isDigit)∗.only .result k
  | blanks, k => (letter isBlank)∗.only .blank k

/-- The letters that lead to the point from the start. -/
def Progress.Opens : Progress → Char → Prop
  | mark k, c => mark? c = some k
  | word, c => isWordStart c = true
  | quote, c => c = '\''
  | string, c => c = '"'
  | minus, c => c = '-'
  | digits, c => c.isDigit = true
  | dollar, c => c = '$'
  | blanks, c => isBlank c = true
  | _, _ => False

theorem step_start_iff {q : Progress} {c : Char} : start.step c = some q ↔ q.Opens c := by
  constructor
  · intro h
    simp only [step] at h
    split at h
    · cases h
      assumption
    · repeat' split at h
      all_goals cases h
      all_goals simp_all [Opens]
  · intro h
    cases q with
    | mark k =>
      have hk : mark? c = some k := h
      rw [step, hk]
    | word => exact step_start_word h
    | digits => exact step_start_digit h
    | blanks => exact step_start_blank h
    | quote | string | minus | dollar =>
      cases h
      rfl
    | _ => cases h

section

variable {p : Progress} {k : Kind} {c : Char} {cs : List Char} {L : Pattern}

theorem mem_signed : cs ∈ (1 + letter (· == '-')) * L ↔ cs ∈ L ∨ cs ∈ letter (· == '-') * L := by
  rw [add_mul, one_mul, Language.mem_add]

theorem cons_mem_number_mul :
    c :: cs ∈ number * L ↔ c.isDigit = true ∧ cs ∈ (letter Char.isDigit)∗ * L := by
  rw [number, mul_assoc, cons_mem_letter_mul]

theorem cons_mem_kstar_letter_mul {p : Char → Bool} :
    c :: cs ∈ (letter p)∗ * L ↔ c :: cs ∈ L ∨ (p c = true ∧ cs ∈ (letter p)∗ * L) := by
  rw [cons_mem_kstar_mul, cons_mem_letter_mul]

theorem cons_mem_quotable_mul : c :: cs ∈ quotable * L ↔
    c :: cs ∈ L ∨ (isPlain c = true ∧ cs ∈ quotable * L) ∨
      (c = '\\' ∧ cs ∈ letter (· != '\n') * (quotable * L)) := by
  rw [quotable, cons_mem_kstar_mul, ← quotable, add_mul, mul_assoc, Language.mem_add,
    cons_mem_letter_mul, cons_mem_letter_mul, beq_iff_eq]

@[simp] theorem mem_only {k' : Kind} : cs ∈ L.only k k' ↔ k = k' ∧ cs ∈ L := by
  unfold Pattern.only
  split <;> simp_all

theorem nil_mem_rest : [] ∈ p.rest k ↔ p.accepts = some k := by
  cases p with
  | start =>
    cases k <;> simp [rest, accepts, Kind.isKeyword, Kind.pattern, number, Language.mem_add,
      -add_eq_sup]
  | _ => simp [rest, accepts, number, Language.mem_add, Language.nil_mem_kstar, -add_eq_sup]

theorem opens_of_cons_mem (h : c :: cs ∈ start.rest k) :
    ∃ q : Progress, q.Opens c ∧ cs ∈ q.rest k := by
  cases k with
  | new | static | garbage => simp [rest, Kind.isKeyword, Kind.pattern] at h
  | symbol =>
    obtain h | h := h
    · obtain ⟨hc, hcs⟩ := cons_mem_letter_mul.mp h
      exact ⟨word, hc, mem_only.mpr ⟨rfl, hcs⟩⟩
    · obtain ⟨hc, hcs⟩ := cons_mem_letter_mul.mp h
      exact ⟨quote, beq_iff_eq.mp hc, mem_only.mpr ⟨rfl, hcs⟩⟩
  | str =>
    obtain ⟨hc, hcs⟩ := cons_mem_letter_mul.mp h
    exact ⟨string, beq_iff_eq.mp hc, mem_only.mpr ⟨rfl, hcs⟩⟩
  | int =>
    obtain h | h := mem_signed.mp h
    · obtain ⟨hc, hcs⟩ := cons_mem_letter_mul.mp h
      exact ⟨digits, hc, .inl (mem_only.mpr ⟨rfl, hcs⟩)⟩
    · obtain ⟨hc, hcs⟩ := cons_mem_letter_mul.mp h
      exact ⟨minus, beq_iff_eq.mp hc, .inl (mem_only.mpr ⟨rfl, hcs⟩)⟩
  | double =>
    obtain h | h := mem_signed.mp h
    · obtain ⟨hc, hcs⟩ := cons_mem_number_mul.mp h
      exact ⟨digits, hc, .inr (mem_only.mpr ⟨rfl, hcs⟩)⟩
    · obtain ⟨hc, hcs⟩ := cons_mem_letter_mul.mp h
      exact ⟨minus, beq_iff_eq.mp hc, .inr (mem_only.mpr ⟨rfl, hcs⟩)⟩
  | result =>
    obtain ⟨hc, hcs⟩ := cons_mem_letter_mul.mp h
    exact ⟨dollar, beq_iff_eq.mp hc, mem_only.mpr ⟨rfl, hcs⟩⟩
  | blank =>
    obtain ⟨hc, hcs⟩ := cons_mem_letter_mul.mp h
    exact ⟨blanks, hc, mem_only.mpr ⟨rfl, hcs⟩⟩
  | _ =>
    obtain ⟨d, hd, h⟩ := h
    obtain ⟨rfl, rfl⟩ := List.cons.inj h
    obtain rfl := beq_iff_eq.mp hd
    exact ⟨mark _, rfl, mem_only.mpr ⟨rfl, rfl⟩⟩

theorem cons_mem_of_opens {q : Progress} (hq : q.Opens c) (h : cs ∈ q.rest k) :
    c :: cs ∈ start.rest k := by
  cases q with
  | mark k' =>
    obtain ⟨rfl, rfl⟩ := mem_only.mp h
    have hq : mark? c = some k' := hq
    unfold mark? at hq
    split at hq <;> cases hq <;> exact ⟨_, beq_self_eq_true _, rfl⟩
  | word =>
    obtain ⟨rfl, h⟩ := mem_only.mp h
    exact .inl (cons_mem_letter_mul.mpr ⟨hq, h⟩)
  | quote =>
    obtain ⟨rfl, h⟩ := mem_only.mp h
    exact .inr (cons_mem_letter_mul.mpr ⟨beq_iff_eq.mpr hq, h⟩)
  | string | dollar =>
    obtain ⟨rfl, h⟩ := mem_only.mp h
    exact cons_mem_letter_mul.mpr ⟨beq_iff_eq.mpr hq, h⟩
  | blanks =>
    obtain ⟨rfl, h⟩ := mem_only.mp h
    exact cons_mem_letter_mul.mpr ⟨hq, h⟩
  | minus =>
    obtain h | h := h
    all_goals
      obtain ⟨rfl, h⟩ := mem_only.mp h
      exact mem_signed.mpr (.inr (cons_mem_letter_mul.mpr ⟨beq_iff_eq.mpr hq, h⟩))
  | digits =>
    obtain h | h := h
    · obtain ⟨rfl, h⟩ := mem_only.mp h
      exact mem_signed.mpr (.inl (cons_mem_letter_mul.mpr ⟨hq, h⟩))
    · obtain ⟨rfl, h⟩ := mem_only.mp h
      exact mem_signed.mpr (.inl (cons_mem_number_mul.mpr ⟨hq, h⟩))
  | _ => cases hq

theorem cons_mem_rest : c :: cs ∈ p.rest k ↔ ∃ q, p.step c = some q ∧ cs ∈ q.rest k := by
  cases p with
  | start =>
    simp only [step_start_iff]
    constructor
    · exact opens_of_cons_mem
    · rintro ⟨q, hq, h⟩
      exact cons_mem_of_opens hq h
  | mark | quotedSymbol | stringEnd => simp [rest, step]
  | word => by_cases hc : isWordChar c <;> simp [rest, step, hc, cons_mem_kstar_letter]
  | quote | quotedChar => by_cases hc : c = '\'' <;> simp [rest, step, hc]
  | string =>
    by_cases hq : c = '"' <;> by_cases hb : c = '\\' <;>
      simp_all [rest, step, isPlain, cons_mem_quotable_mul]
  | stringEscape => by_cases hc : c = '\n' <;> simp [rest, step, hc]
  | minus | point | dollar =>
    by_cases hc : c.isDigit <;>
      simp [rest, step, hc, number, mul_assoc, Language.mem_add, -add_eq_sup]
  | digits =>
    by_cases hc : c.isDigit <;> by_cases hd : c = '.' <;>
      simp_all [rest, step, cons_mem_kstar_letter, cons_mem_kstar_letter_mul, Language.mem_add,
        -add_eq_sup]
  | fraction | index =>
    by_cases hc : c.isDigit <;> simp [rest, step, hc, cons_mem_kstar_letter]
  | blanks => by_cases hc : isBlank c <;> simp [rest, step, hc, cons_mem_kstar_letter]

theorem mem_rest_iff : cs ∈ p.rest k ↔ ∃ q, p.run cs = some q ∧ q.accepts = some k := by
  induction cs generalizing p with
  | nil => simp [nil_mem_rest]
  | cons c cs ih =>
    rw [cons_mem_rest, run_cons]
    cases p.step c with
    | none => simp
    | some q => simpa using ih

theorem mem_start_rest_iff : cs ∈ start.rest k ↔ k.isKeyword = false ∧ cs ∈ k.pattern := by
  cases hk : k.isKeyword <;> simp [rest, hk]

/-- What the scanner accepts is what the pattern matches. -/
theorem isLexeme_iff : IsLexeme k cs ↔ k.isKeyword = false ∧ cs ∈ k.pattern := by
  rw [← mem_start_rest_iff, mem_rest_iff, IsLexeme]

theorem exists_mem_rest (p : Progress) : ∃ k cs, cs ∈ p.rest k := by
  cases p with
  | start => exact ⟨.colon, [':'], mem_rest_iff.mpr ⟨mark .colon, rfl, rfl⟩⟩
  | mark k => exact ⟨k, [], nil_mem_rest.mpr rfl⟩
  | word | quotedSymbol => exact ⟨.symbol, [], nil_mem_rest.mpr rfl⟩
  | quote => exact ⟨.symbol, ['+', '\''], mem_rest_iff.mpr ⟨quotedSymbol, rfl, rfl⟩⟩
  | quotedChar => exact ⟨.symbol, ['\''], mem_rest_iff.mpr ⟨quotedSymbol, rfl, rfl⟩⟩
  | string => exact ⟨.str, ['"'], mem_rest_iff.mpr ⟨stringEnd, rfl, rfl⟩⟩
  | stringEscape => exact ⟨.str, ['"', '"'], mem_rest_iff.mpr ⟨stringEnd, rfl, rfl⟩⟩
  | stringEnd => exact ⟨.str, [], nil_mem_rest.mpr rfl⟩
  | minus => exact ⟨.int, ['0'], mem_rest_iff.mpr ⟨digits, rfl, rfl⟩⟩
  | digits => exact ⟨.int, [], nil_mem_rest.mpr rfl⟩
  | point => exact ⟨.double, ['0'], mem_rest_iff.mpr ⟨fraction, rfl, rfl⟩⟩
  | fraction => exact ⟨.double, [], nil_mem_rest.mpr rfl⟩
  | dollar => exact ⟨.result, ['0'], mem_rest_iff.mpr ⟨index, rfl, rfl⟩⟩
  | index => exact ⟨.result, [], nil_mem_rest.mpr rfl⟩
  | blanks => exact ⟨.blank, [], nil_mem_rest.mpr rfl⟩

end

end ActionGrammar.GrammarText
