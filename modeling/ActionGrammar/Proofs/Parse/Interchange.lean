import ActionGrammar.Proofs.Parse.Engine
import Mathlib.Data.List.Forall2

/-! # What a parse reads of its tokens

A parse asks a token for nothing but the terminals that it matches and its value. So
tokens that agree on both can be put in each other's place, and the parse stays the same.
-/

namespace ActionGrammar

/-- The tokens are compatible with the same tokens, and they have the same value. -/
structure Interchangeable (π : Type) {τ : Type} [Token τ] [TokenValue π τ] (t u : τ) : Prop where
  compatible : ∀ r : τ, Token.compatible r t = Token.compatible r u
  value : (TokenValue.value? t : StateM (Store π) (Option Value)) = TokenValue.value? u

variable {π τ : Type} [Token τ] [TokenValue π τ] {t u : τ} {tokens tokens' : Array τ}

theorem Interchangeable.isMatch_eq (h : Interchangeable π t u) (terminal : Terminal τ) :
    terminal.isMatch t = terminal.isMatch u := by
  obtain ⟨name, reference⟩ := terminal
  cases reference with
  | none => rfl
  | some r => exact h.compatible r

theorem rel_getElem? {ts us : List τ} (h : ts.Forall₂ (Interchangeable π) us) (i : Nat) :
    Option.Rel (Interchangeable π) ts[i]? us[i]? := by
  induction h generalizing i with
  | nil => exact .none
  | cons htu _ ih =>
    cases i with
    | zero => exact .some htu
    | succ i => exact ih i

namespace Parser

variable {p : Parser π τ} {nt : NonTerminal} {start : Nat} {rules : List (Rule π)}
  {expand : NonTerminal → Parsing π (Option Value)}

theorem matchTerminal_congr
    (h : ∀ i : Nat, Option.Rel (Interchangeable π) tokens[i]? tokens'[i]?) (id : Terminal.Id) :
    p.matchTerminal tokens id = p.matchTerminal tokens' id := by
  unfold matchTerminal
  refine bind_congr fun _ => bind_congr fun terminal => bind_congr fun here => ?_
  refine bind_congr fun _ => ?_
  have hhere := h here
  generalize tokens[here]? = o, tokens'[here]? = o' at hhere
  cases hhere with
  | none => rfl
  | some htu => simp only [htu.isMatch_eq, htu.value]

theorem matchSymbols_congr
    (h : ∀ i : Nat, Option.Rel (Interchangeable π) tokens[i]? tokens'[i]?) (ss : List Symbol) :
    p.matchSymbols tokens expand ss = p.matchSymbols tokens' expand ss := by
  induction ss with
  | nil => rfl
  | cons s ss ih =>
    rw [matchSymbols_cons, matchSymbols_cons, ih]
    cases s with
    | terminal id => rw [matchSymbol, matchSymbol, matchTerminal_congr h]
    | nonTerminal nt => rfl

theorem tryRules_congr
    (h : ∀ i : Nat, Option.Rel (Interchangeable π) tokens[i]? tokens'[i]?) (outcome : Outcome)
    (rest : List (Nat × Rule π)) :
    p.tryRules tokens expand nt start rules outcome rest =
      p.tryRules tokens' expand nt start rules outcome rest := by
  induction rest generalizing outcome with
  | nil => rfl
  | cons r rest ih =>
    rw [tryRules, tryRules, tryRule, tryRule, matchSymbols_congr h]
    simp only [ih]

theorem expand_congr
    (h : ∀ i : Nat, Option.Rel (Interchangeable π) tokens[i]? tokens'[i]?) (room : Nat) :
    p.expand tokens room = p.expand tokens' room := by
  induction room with
  | zero => rfl
  | succ room ih =>
    funext nt
    rw [expand, expand, ih]
    simp only [tryRules_congr h]

/-- Tokens that are interchangeable one by one are parsed alike, with the same events. -/
theorem run_congr (h : tokens.toList.Forall₂ (Interchangeable π) tokens'.toList) :
    p.run tokens = p.run tokens' := by
  have hget (i : Nat) : Option.Rel (Interchangeable π) tokens[i]? tokens'[i]? := by
    rw [← Array.getElem?_toList, ← Array.getElem?_toList]
    exact rel_getElem? h i
  have hsize : tokens.size = tokens'.size := by
    rw [← Array.length_toList, ← Array.length_toList]
    exact h.length_eq
  have htokens : p.parseTokens tokens = p.parseTokens tokens' := by
    rw [parseTokens, parseTokens, expand_congr hget, hsize]
  unfold run
  rw [htokens]

theorem parse_congr (h : tokens.toList.Forall₂ (Interchangeable π) tokens'.toList) :
    p.parse tokens = p.parse tokens' := by
  rw [parse, parse, run_congr h]

end Parser

end ActionGrammar
