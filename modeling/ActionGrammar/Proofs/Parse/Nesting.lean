import ActionGrammar.Proofs.Grammar.LeftRecursion
import ActionGrammar.Proofs.Parse.Congruence
import ActionGrammar.Proofs.Parse.Predictive

/-! # How deep nonterminals nest

Where nothing has been consumed since a nonterminal was entered, the next one
is entered along a left edge, so its rank is smaller. A grammar without left
recursion thus nests at most as many nonterminals at one position as it has,
and a parse needs no more room than that for every position.
-/

namespace ActionGrammar

open Attempt

namespace Parsing

variable {π α : Type} {run : Run π} {d D : Nat} {l : Limits}

/-- More nonterminals have been entered than left, by `d` in the end and never by more
than `D`. -/
structure Nested (d D : Nat) (run : Run π) : Prop where
  now : run.events.countP Event.isEnter = run.events.countP Event.isExit + d
  always : ∀ es, es <:+ run.events → es.countP Event.isEnter ≤ es.countP Event.isExit + D

theorem Nested.of_events {run' : Run π} (h : Nested d D run) (he : run'.events = run.events) :
    Nested d D run' := ⟨he ▸ h.now, he ▸ h.always⟩

theorem Nested.push {d' : Nat} {e : Event} (h : Nested d D run) (hD : d' ≤ D)
    (hd : (e :: run.events).countP Event.isEnter = (e :: run.events).countP Event.isExit + d') :
    Nested d' D { run with events := e :: run.events } := by
  refine ⟨hd, fun es hes => ?_⟩
  rcases List.suffix_cons_iff.mp hes with rfl | hes
  · omega
  · exact h.always es hes

theorem Nested.le (h : Nested d D run) : d ≤ D := by
  have := h.always _ List.suffix_rfl
  have := h.now
  omega

theorem ends_burn {Q : Unit → Run π → Prop} {R : ParseError → Run π → Prop}
    (hQ : Q () { run with steps := run.steps + 1 }) (hR : ∀ n, R (.fuelExhausted n) run) :
    (burn l).Ends run Q R := by
  unfold burn
  simp only [ends_bind, ends_get]
  split
  · split
    · simp [*]
    · simpa
  · simpa

/-- A parse that begins inside of `d` nonterminals, ends inside of `d'`, and is never inside of
more than `D`. -/
def Nests (d d' D : Nat) (x : Parsing π α) : Prop :=
  ∀ run, Nested d D run → x.Ends run (fun _ run' => Nested d' D run')
    fun _ run' => ∃ d'', Nested d'' D run'

theorem Nests.bind {β : Type} {d' d'' : Nat} {x : Parsing π α} {f : α → Parsing π β}
    (hx : Nests d d' D x) (hf : ∀ a, Nests d' d'' D (f a)) : Nests d d'' D (x >>= f) := by
  intro run h
  rw [ends_bind]
  exact (hx run h).mono (fun a run' h' => hf a run' h') fun _ _ h' => h'

theorem nests_throw {e : ParseError} : Nests d d D (throw e : Parsing π α) := fun _ h => ⟨d, h⟩

theorem nests_enter {nt : NonTerminal} {i : Nat} (hD : d < D) :
    Nests d (d + 1) D (record (.enter nt i) : Parsing π Unit) := by
  intro run h
  refine h.push hD ?_
  rw [List.countP_cons_of_pos rfl, List.countP_cons_of_neg Bool.false_ne_true, h.now]
  rfl

theorem nests_exit {nt : NonTerminal} {matched : Bool} {i : Nat} :
    Nests (d + 1) d D (record (.exit nt matched i) : Parsing π Unit) := by
  intro run h
  refine h.push (Nat.le_of_succ_le h.le) ?_
  rw [List.countP_cons_of_neg Bool.false_ne_true, List.countP_cons_of_pos rfl, h.now]
  omega

theorem nests_congruence : Congruence l l fun {α} (x _ : Parsing π α) => Nests d d D x where
  ofExcept r _ run h := by cases r with
    | ok => exact h
    | error => exact ⟨d, h⟩
  bind := Nests.bind
  onStore _ _ h := h.of_events rfl
  burn _ h := ends_burn (h.of_events rfl) fun _ => ⟨d, h⟩
  cursor _ h := h
  moveTo _ _ h := h.of_events rfl
  test _ _ h := h.of_events rfl
  record e he he' _ h := h.push h.le (by simp [he, he', h.now])

/-- A parse that, given more room, does the same, unless it reaches the limit of nesting. -/
def Extends (x y : Parsing π α) : Prop :=
  ∀ run, (∃ n run', x.runFrom run = (.error (.recursionLimitExceeded n), run')) ∨
    y.runFrom run = x.runFrom run

theorem Extends.refl (x : Parsing π α) : Extends x x := fun _ => .inr rfl

theorem Extends.trans {x y z : Parsing π α} (h : Extends x y) (h' : Extends y z) :
    Extends x z := by
  intro run
  rcases h run with hx | hxy
  · exact .inl hx
  · rw [← hxy]
    exact h' run

theorem extends_of_throw {n : UInt32} {y : Parsing π α} :
    Extends (throw (.recursionLimitExceeded n)) y := fun run => .inl ⟨n, run, rfl⟩

theorem Extends.bind {β : Type} {x y : Parsing π α} {f f' : α → Parsing π β} (h : Extends x y)
    (hf : ∀ a, Extends (f a) (f' a)) : Extends (x >>= f) (y >>= f') := by
  intro run
  simp only [runFrom_bind]
  rcases h run with ⟨n, run', hx⟩ | hxy
  · exact .inl ⟨n, run', by rw [hx]⟩
  · rw [hxy]
    rcases x.runFrom run with ⟨_ | a, run'⟩
    · exact .inr rfl
    · exact hf a run'

theorem extends_congruence : Congruence l l fun {α} (x y : Parsing π α) => Extends x y where
  ofExcept _ _ := .refl _
  bind := Extends.bind
  onStore _ := .refl _
  burn := .refl _
  cursor := .refl _
  moveTo _ := .refl _
  test _ := .refl _
  record _ _ _ := .refl _

def HasRoom (x : Parsing π α) (run : Run π) : Prop :=
  x.Ensures run (fun _ _ => True) fun e => ∀ n, e ≠ .recursionLimitExceeded n

theorem HasRoom.bind {β : Type} {x : Parsing π α} {f : α → Parsing π β} (hx : HasRoom x run)
    (hf : ∀ a run', HasRoom (f a) run') : HasRoom (x >>= f) run := by
  rw [HasRoom, ensures_bind]
  exact hx.mono (fun a run' _ => hf a run') fun _ he => he

theorem hasRoom_congruence :
    Congruence l l fun {α} (x _ : Parsing π α) => ∀ run, HasRoom x run where
  ofExcept r h run := by cases r with
    | ok => trivial
    | error e =>
      rintro n rfl
      exact nomatch h _ rfl
  bind h hf run := (h run).bind hf
  onStore _ _ := trivial
  burn _ := ensures_burn trivial fun _ _ _ => nofun
  cursor _ := trivial
  moveTo _ _ := trivial
  test _ _ := trivial
  record _ _ _ _ := trivial

end Parsing

namespace Grammar

variable {π τ : Type} {g : Grammar π τ} {rank : NonTerminal → Nat} {nt nt' : NonTerminal}
  {n i j : Nat}

/-- How many nonterminals can nest from position `i` of `n` tokens: one for every rank up to the
nonterminal's own, and all of them for each token that is left. -/
def nesting (g : Grammar π τ) (rank : NonTerminal → Nat) (n : Nat) (nt : NonTerminal) (i : Nat) :
    Nat :=
  rank nt + g.nonTerminals.size * (n - i)

theorem IsRank.nesting_zero_le (hr : g.IsRank rank) :
    g.nesting rank n nt 0 ≤ g.nonTerminals.size * (n + 1) := by
  have := hr.le_size nt
  rw [nesting, Nat.sub_zero, Nat.mul_succ]
  omega

theorem IsRank.nesting_lt (hr : g.IsRank rank) (hd : g.Declares (.nonTerminal nt)) (hij : i ≤ j)
    (hj : j ≤ n) (he : j = i → g.LeftEdge nt nt') :
    g.nesting rank n nt' j < g.nesting rank n nt i := by
  unfold nesting
  rcases Nat.eq_or_lt_of_le hij with rfl | hlt
  · have := hr.lt_of_leftEdge (he rfl)
    omega
  · have hstep : g.nonTerminals.size * (n - j + 1) ≤ g.nonTerminals.size * (n - i) :=
      Nat.mul_le_mul_left _ (by omega)
    have := hr.pos hd
    have := hr.le_size nt'
    rw [Nat.mul_succ] at hstep
    omega

end Grammar

namespace Parser

open Parsing

variable {π τ : Type} [Token τ] [TokenValue π τ] {p : Parser π τ} {tokens : Array τ}
  {nt : NonTerminal} {run : Run π} {room : Nat} {s : Store π}

/-- An expansion leaves the nonterminals that it enters, and nests no more of them than there is
room for. -/
theorem nests_expand {d D : Nat} (hD : d + room ≤ D) :
    Nests d d D (p.expand tokens room nt) := by
  induction room generalizing d nt with
  | zero => exact Nests.bind (nests_congruence (l := p.limits)).burn fun _ => nests_throw
  | succ room ih =>
    have outside := nests_congruence (π := π) (l := p.limits) (d := d) (D := D)
    have inside := nests_congruence (π := π) (l := p.limits) (d := d + 1) (D := D)
    have nested (rules : List (Rule π)) (start : Nat) :
        Nests (d + 1) (d + 1) D (p.tryRules tokens (p.expand tokens room) nt start rules
          ⟨none, none⟩ ((List.range rules.length).zip rules)) :=
      tryRules_rel inside rfl _ (p.expand tokens room) (fun _ => ih (by omega)) _
    unfold expand
    refine outside.burn.bind fun _ => outside.cursor.bind fun start => ?_
    refine (nests_enter (by omega)).bind fun _ => (inside.ofLookup _).bind fun rules => ?_
    refine (nested rules start).bind fun outcome => (conclude_rel inside).bind fun result => ?_
    exact inside.cursor.bind fun stop => nests_exit.bind fun _ => outside.pure result

/-- More room does not change an expansion, unless the limit is reached. -/
theorem extends_expand_succ :
    Extends (p.expand tokens room nt) (p.expand tokens (room + 1) nt) := by
  induction room generalizing nt with
  | zero =>
    unfold expand
    exact .bind (.refl _) fun _ => extends_of_throw
  | succ room ih =>
    have h := extends_congruence (π := π) (l := p.limits)
    unfold expand
    refine h.bind h.burn fun _ => h.bind h.cursor fun start => h.bind (.refl _) fun _ => ?_
    refine h.bind (h.ofLookup _) fun rules => ?_
    refine h.bind (tryRules_rel h rfl _ _ (fun _ => ih) _) fun outcome => ?_
    exact h.bind (conclude_rel h) fun result => .refl _

theorem extends_expand (p : Parser π τ) (tokens : Array τ) (nt : NonTerminal) {room' : Nat}
    (hle : room ≤ room') :
    Extends (p.expand tokens room nt) (p.expand tokens room' nt) := by
  induction hle with
  | refl => exact .refl _
  | step _ ih => exact ih.trans extends_expand_succ

theorem Found.cursor_le {sym : Symbol} {v : Value} {run' : Run π}
    (h : p.Found tokens sym run (some v) run') (hrun : run.cursor ≤ tokens.size) :
    run.cursor ≤ run'.cursor ∧ run'.cursor ≤ tokens.size ∧
      (run'.cursor = run.cursor → p.grammar.Nullable [sym]) := by
  obtain ⟨tree, hr, -⟩ := h
  obtain ⟨hd, hy, hj⟩ := (hr [] _ .nil).derives _ _ rfl
  have hle := hy.length_le
  simp only [List.length_drop, Array.length_toList] at hle
  refine ⟨by omega, by omega, fun heq => hd.nullable ?_⟩
  exact List.eq_nil_of_length_eq_zero (by omega)

variable {rank : NonTerminal → Nat} {i : Nat}
  {expand : NonTerminal → Parsing π (Option Value)} {rules : List (Rule π)}
  {outcome : Outcome} {k : Nat} {r : Rule π}

/-- The room is enough for the nonterminals that nest in an expansion. -/
def Suffices (p : Parser π τ) (tokens : Array τ) (rank : NonTerminal → Nat) (room : Nat)
    (expand : NonTerminal → Parsing π (Option Value)) : Prop :=
  ∀ {nt run}, p.grammar.Declares (.nonTerminal nt) → run.cursor ≤ tokens.size →
    p.grammar.nesting rank tokens.size nt run.cursor ≤ room → HasRoom (expand nt) run

theorem matchSymbols_hasRoom (hg : p.grammar.IsClosed) (hr : p.grammar.IsRank rank)
    (hE : p.Expands tokens expand) (hS : p.Suffices tokens rank room expand)
    (hk : p.grammar.rule? nt k = some r) (hi : p.grammar.nesting rank tokens.size nt i ≤ room + 1)
    {α ss : List Symbol} (hα : r.symbols = α ++ ss) (hle : i ≤ run.cursor)
    (hsize : run.cursor ≤ tokens.size) (hn : run.cursor = i → p.grammar.Nullable α) :
    HasRoom (p.matchSymbols tokens expand ss) run := by
  induction ss generalizing α run with
  | nil => trivial
  | cons sym ss ih =>
    have hsym : HasRoom (p.matchSymbol tokens expand sym) run := by
      cases sym with
      | terminal id =>
        rw [matchSymbol]
        split
        · trivial
        · exact matchTerminal_rel hasRoom_congruence rfl id run
      | nonTerminal nt' =>
        have hlt := hr.nesting_lt (Grammar.declares_of_rule? hk) hle hsize
          fun heq => ⟨k, r, α, ss, hk, hα, hn heq⟩
        exact hS (hg.symbols hk _ (by simp [hα])) hsize (by omega)
    rw [matchSymbols_cons, HasRoom, ensures_bind]
    refine ((matchSymbol_ensures hE sym).and hsym).mono (fun result run' h => ?_) fun _ h => h.2
    cases result with
    | none => trivial
    | some v =>
      obtain ⟨hle', hsize', hn'⟩ := h.1.cursor_le hsize
      have hrest : HasRoom (p.matchSymbols tokens expand ss) run' := by
        refine ih (α := α ++ [sym]) (by simp [hα]) (by omega) hsize' fun heq => ?_
        rw [Grammar.nullable_append_iff]
        exact ⟨hn (by omega), hn' (by omega)⟩
      exact hrest.bind fun _ _ => trivial

theorem tryRule_hasRoom (hg : p.grammar.IsClosed) (hr : p.grammar.IsRank rank)
    (hE : p.Expands tokens expand) (hS : p.Suffices tokens rank room expand)
    (hk : p.grammar.rule? nt k = some r) (hi : p.grammar.nesting rank tokens.size nt i ≤ room + 1)
    (hsize : i ≤ tokens.size) : HasRoom (p.tryRule tokens expand nt i rules outcome k r) run := by
  have h := hasRoom_congruence (π := π) (l := p.limits)
  unfold tryRule
  split
  · trivial
  · simp only [HasRoom, ensures_bind, ensures_moveTo, ensures_record]
    have hsyms : HasRoom (p.matchSymbols tokens expand r.symbols)
        { run with cursor := i, events := .attempt nt k i :: run.events } :=
      matchSymbols_hasRoom hg hr hE hS hk hi (α := []) rfl (Nat.le_refl i) hsize fun _ => .nil
    refine hsyms.mono (fun result run' _ => ?_) fun _ h => h
    cases result with
    | none => trivial
    | some results =>
      refine HasRoom.bind (reduce_rel h results run') fun value run'' => ?_
      cases outcome.matched with
      | none => trivial
      | some earlier =>
        refine HasRoom.bind (h.ofLookup _ run'') fun _ run₁ => ?_
        refine HasRoom.bind (h.ofLookup _ run₁) fun _ run₂ => ?_
        exact HasRoom.bind (h.ofLookup _ run₂) fun _ => h.throw rfl

theorem tryRules_hasRoom (hg : p.grammar.IsClosed) (hr : p.grammar.IsRank rank)
    (hE : p.Expands tokens expand) (hS : p.Suffices tokens rank room expand)
    (hi : p.grammar.nesting rank tokens.size nt i ≤ room + 1) (hsize : i ≤ tokens.size)
    {rest : List (Nat × Rule π)} (hrest : ∀ kr ∈ rest, p.grammar.rule? nt kr.1 = some kr.2) :
    HasRoom (p.tryRules tokens expand nt i rules outcome rest) run := by
  induction rest generalizing outcome run with
  | nil => trivial
  | cons kr rest ih =>
    obtain ⟨hk, hrest⟩ := List.forall_mem_cons.mp hrest
    rw [tryRules]
    exact (tryRule_hasRoom hg hr hE hS hk hi hsize).bind fun outcome' run' => ih hrest

/-- An expansion has room if there is enough for what can nest in it. -/
theorem suffices_expand (hg : p.grammar.IsClosed) (hr : p.grammar.IsRank rank) :
    p.Suffices tokens rank room (p.expand tokens room) := by
  induction room with
  | zero =>
    intro nt run hd hsize hroom
    have := hr.pos hd
    simp only [Grammar.nesting] at hroom
    omega
  | succ room ih =>
    intro nt run hd hsize hroom
    have h := hasRoom_congruence (π := π) (l := p.limits)
    have hrules := Grammar.rules_eq_ok hd
    have hmem : ∀ kr ∈ (List.range _).zip p.grammar.nonTerminals[nt.index].rules,
        p.grammar.rule? nt kr.1 = some kr.2 := fun _ => (mem_numbered_iff hrules).mp
    unfold expand
    rw [HasRoom, ensures_bind]
    refine ensures_burn ?_ (by simp)
    rw [ensures_bind, ensures_cursor, ensures_bind, ensures_record, ensures_bind, ensures_ofLookup,
      hrules]
    refine ⟨fun rules heq => ?_, by simp⟩
    obtain rfl := Except.ok.inj heq
    refine HasRoom.bind (tryRules_hasRoom hg hr (expands_expand p tokens room) ih hroom hsize hmem)
      fun outcome run' => ?_
    exact HasRoom.bind (conclude_rel h run') fun _ _ => trivial

theorem parseTokens_nested {D : Nat} {init : Run π}
    (h : (p.expand tokens p.limits.recursion.toNat p.grammar.start).Ends init
      (fun _ run' => Nested 0 D run') fun _ run' => ∃ d, Nested d D run') :
    ∃ d, Nested d D ((p.parseTokens tokens).runFrom init).2 := by
  refine Ends.runFrom_snd (P := fun run' => ∃ d, Nested d D run') ?_
  unfold parseTokens
  rw [ends_bind]
  refine h.mono (fun result run' h' => ?_) fun _ _ h' => h'
  cases result with
  | none => exact ⟨0, h'⟩
  | some v =>
    rw [ends_bind, ends_get]
    split
    · exact ⟨0, h'⟩
    · exact ⟨0, h'⟩

theorem parseTokens_hasRoom {init : Run π}
    (h : HasRoom (p.expand tokens p.limits.recursion.toNat p.grammar.start) init) :
    HasRoom (p.parseTokens tokens) init := by
  unfold parseTokens
  refine h.bind fun result run' => ?_
  cases result with
  | none => exact fun _ => nofun
  | some v =>
    rw [HasRoom, ensures_bind, ensures_get]
    split
    · exact fun _ => nofun
    · trivial

/-- A grammar without left recursion never nests more nonterminals than it has for each token and
for the end. With room for as many, a parse does what it does with any more room, and does not
reach a limit of nesting. -/
theorem run_nesting {b : Builder τ} {r : Registry π} (hb : b.build r = .ok p.grammar)
    (tokens : Array τ) (s : Store π) :
    let bound := p.grammar.nonTerminals.size * (tokens.size + 1)
    (∀ room, bound ≤ room →
      (p.expand tokens room p.grammar.start).runFrom ⟨0, 0, 0, s, []⟩ =
        (p.expand tokens bound p.grammar.start).runFrom ⟨0, 0, 0, s, []⟩ ∧
      ∀ n, ((p.expand tokens room p.grammar.start).runFrom ⟨0, 0, 0, s, []⟩).1 ≠
        .error (.recursionLimitExceeded n)) ∧
    (∀ before, before <+: ((p.run tokens).run s).1.2 →
      before.countP Event.isEnter ≤ before.countP Event.isExit + bound) ∧
    (bound ≤ p.limits.recursion.toNat →
      ∀ n, ((p.parse tokens).runFrom s).1 ≠ .error (.recursionLimitExceeded n)) := by
  intro bound
  have hg := Builder.isClosed_of_build hb
  obtain ⟨rank, hr⟩ := LeftRecursion.exists_isRank hg p.isChecked
  have hroom {room : Nat} (h : bound ≤ room) :
      HasRoom (p.expand tokens room p.grammar.start) ⟨0, 0, 0, s, []⟩ :=
    suffices_expand hg hr hg.start (Nat.zero_le _) (Nat.le_trans hr.nesting_zero_le h)
  have hsame {room : Nat} (h : bound ≤ room) :
      (p.expand tokens room p.grammar.start).runFrom ⟨0, 0, 0, s, []⟩ =
        (p.expand tokens bound p.grammar.start).runFrom ⟨0, 0, 0, s, []⟩ := by
    rcases extends_expand p tokens p.grammar.start h ⟨0, 0, 0, s, []⟩ with ⟨n, run', hn⟩ | heq
    · exact absurd rfl ((hroom (Nat.le_refl _)).of_error hn n)
    · exact heq
  have hnested : (p.expand tokens p.limits.recursion.toNat p.grammar.start).Ends ⟨0, 0, 0, s, []⟩
      (fun _ run' => Nested 0 bound run') fun _ run' => ∃ d, Nested d bound run' := by
    have hinit : Nested 0 bound (⟨0, 0, 0, s, []⟩ : Run π) := ⟨rfl, by simp⟩
    rcases Nat.le_total p.limits.recursion.toNat bound with hle | hle
    · exact nests_expand (by omega) _ hinit
    · rw [Ends, hsame hle]
      exact nests_expand (by omega) _ hinit
  refine ⟨fun room h => ⟨hsame h, fun n hn => ?_⟩, fun before h => ?_, fun hle n hn => ?_⟩
  · exact (hroom h).of_error (Prod.ext hn rfl) n rfl
  · obtain ⟨d, -, halways⟩ := parseTokens_nested hnested
    have hsuffix : before.reverse <:+
        ((p.parseTokens tokens).runFrom ⟨0, 0, 0, s, []⟩).2.events.reverse.reverse :=
      List.reverse_suffix.mpr h
    rw [List.reverse_reverse] at hsuffix
    simpa using halways _ hsuffix
  · exact (parseTokens_hasRoom (hroom hle)).of_error (Prod.ext hn rfl) n rfl

/-- One integer nests two sequences, which is as deep as the bound allows. -/
theorem run_nesting_int :
    (((ints.withLimits ⟨none, 2⟩).parse #[⟨.int, 0, 1, some (.int 1)⟩]).runFrom ⟨#[]⟩).1 ≠
        .error (.recursionLimitExceeded 2) ∧
      (((ints.withLimits ⟨none, 1⟩).parse #[⟨.int, 0, 1, some (.int 1)⟩]).runFrom ⟨#[]⟩).1 =
        .error (.recursionLimitExceeded 1) := by
  have hb : intsBuilder.build ⟨[]⟩ = .ok (ints.withLimits ⟨none, 2⟩).grammar := rfl
  exact ⟨(run_nesting hb #[⟨.int, 0, 1, some (.int 1)⟩] ⟨#[]⟩).2.2 (by decide) 2, by cbv⟩

end Parser

end ActionGrammar
