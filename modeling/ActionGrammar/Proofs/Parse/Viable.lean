import ActionGrammar.Proofs.Parse.Predictive
import ActionGrammar.Proofs.Parse.Visits

/-! # Viable prefixes

The tokens before a position are a viable prefix if some continuation of them can
be derived. If all symbols can be derived somehow, every terminal is tested
behind a viable prefix. Tokens in front of the furthest test are all that has
been seen, so what comes behind them may be exchanged; where recognition finds
every derivation, and never ends without a test, no prefix beyond that position
is viable.
-/

namespace ActionGrammar.Grammar

variable {π τ : Type} [Token τ] {g : Grammar π τ} {tokens tokens' : List τ} {ss ss' : List Symbol}
  {s : Symbol} {nt : NonTerminal} {i j m : Nat} {P : τ → Prop} {o : Option (Forest τ × Nat)}

def Fillable (g : Grammar π τ) (P : τ → Prop) (ss : List Symbol) : Prop :=
  ∃ f, g.Derives ss f ∧ ∀ x ∈ f.yield, P x

namespace Fillable

theorem nil : g.Fillable P [] := ⟨.nil, .nil, nofun⟩

theorem append (h : g.Fillable P ss) (h' : g.Fillable P ss') : g.Fillable P (ss ++ ss') := by
  obtain ⟨f, hd, hP⟩ := h
  obtain ⟨f', hd', hP'⟩ := h'
  refine ⟨f.append f', hd.append hd', fun x hx => ?_⟩
  rw [Forest.yield_append] at hx
  exact (List.mem_append.mp hx).elim (hP x) (hP' x)

theorem of_forall (h : ∀ s ∈ ss, g.Fillable P [s]) : g.Fillable P ss := by
  induction ss with
  | nil => exact nil
  | cons s ss ih =>
    obtain ⟨hs, hss⟩ := List.forall_mem_cons.mp h
    exact hs.append (ih hss)

theorem terminal {id : Terminal.Id} {x : τ} (h : g.Matches id x) (hx : P x) :
    g.Fillable P [.terminal id] :=
  ⟨.token id x .nil, .token h .nil, fun _ hy => List.mem_singleton.mp hy ▸ hx⟩

theorem empty : g.Fillable P [.terminal ⟨0⟩] := ⟨.empty .nil, .empty .nil, nofun⟩

theorem node {k : Nat} {r : Rule π} (hr : g.rule? nt k = some r) (h : g.Fillable P r.symbols) :
    g.Fillable P [.nonTerminal nt] := by
  obtain ⟨f, hd, hP⟩ := h
  exact ⟨.node nt k f .nil, .node hr hd .nil, by simpa [Forest.yield] using hP⟩

end Fillable

/-- Behind the tokens in front of the position, some tokens in `P` can follow. -/
def Viable (g : Grammar π τ) (P : τ → Prop) (tokens : List τ) (i : Nat) : Prop :=
  ∃ us, (∀ u ∈ us, P u) ∧ g.Generates (tokens.take i ++ us)

/-- Whatever the symbols derive from the position on can be continued by tokens in `P`. -/
def Continues (g : Grammar π τ) (P : τ → Prop) (tokens : List τ) (ss : List Symbol) (i : Nat) :
    Prop :=
  ∀ f, g.Derives ss f → ∃ us, (∀ u ∈ us, P u) ∧ g.Generates (tokens.take i ++ f.yield ++ us)

theorem Continues.viable (h : g.Continues P tokens ss i) (hss : g.Fillable P ss) :
    g.Viable P tokens i := by
  obtain ⟨f, hd, hP⟩ := hss
  obtain ⟨us, hus, hgen⟩ := h f hd
  refine ⟨f.yield ++ us, fun u hu => ?_, by rwa [← List.append_assoc]⟩
  exact (List.mem_append.mp hu).elim (hP u) (hus u)

theorem Continues.behind {f : Forest τ} (h : g.Continues P tokens (s :: ss) i)
    (hs : g.Recognizes tokens [s] i (some (f, j))) : g.Continues P tokens ss j := by
  intro f' hd'
  obtain ⟨hd, hy, rfl⟩ := hs.derives _ _ rfl
  obtain ⟨us, hus, hgen⟩ := h (f.append f') (hd.append hd')
  refine ⟨us, hus, ?_⟩
  rw [List.take_add, ← List.prefix_iff_eq_take.mp hy]
  rwa [Forest.yield_append, ← List.append_assoc] at hgen

theorem Continues.nested {k : Nat} {r : Rule π}
    (h : g.Continues P tokens (.nonTerminal nt :: ss) i) (hss : g.Fillable P ss)
    (hr : g.rule? nt k = some r) : g.Continues P tokens r.symbols i := by
  intro c hc
  obtain ⟨f, hd, hP⟩ := hss
  obtain ⟨us, hus, hgen⟩ := h (.node nt k c f) (.node hr hc hd)
  refine ⟨f.yield ++ us, fun u hu => ?_, ?_⟩
  · exact (List.mem_append.mp hu).elim (hP u) (hus u)
  · simpa [Forest.yield, List.append_assoc] using hgen

theorem Visits.viable (hfill : ∀ {nt k r}, g.rule? nt k = some r → ∀ s ∈ r.symbols,
    g.Fillable P [s]) (h : g.Visits tokens ss i (.test m)) (hss : ∀ s ∈ ss, g.Fillable P [s])
    (hc : g.Continues P tokens ss i) : g.Viable P tokens m := by
  generalize hx : Visit.test m = x at h
  induction h with
  | test _ =>
    obtain rfl := Visit.test.inj hx
    exact hc.viable (.of_forall hss)
  | expand => cases hx
  | reduce _ _ _ => cases hx
  | fallback _ => cases hx
  | nested hr _ _ ih =>
    obtain ⟨-, hss⟩ := List.forall_mem_cons.mp hss
    exact ih (hfill hr) (hc.nested (.of_forall hss) hr) hx
  | behind hs _ ih =>
    obtain ⟨-, hss⟩ := List.forall_mem_cons.mp hss
    exact ih hss (hc.behind hs) hx

theorem Visits.le_length (h : g.Visits tokens ss i (.test m)) (hi : i ≤ tokens.length) :
    m ≤ tokens.length := by
  generalize hx : Visit.test m = x at h
  induction h with
  | test _ =>
    obtain rfl := Visit.test.inj hx
    exact hi
  | expand => cases hx
  | reduce _ _ _ => cases hx
  | fallback _ => cases hx
  | nested _ _ _ ih => exact ih hi hx
  | behind hs _ ih =>
    obtain ⟨-, hy, rfl⟩ := hs.derives _ _ rfl
    have := hy.length_le
    rw [List.length_drop] at this
    exact ih (by omega) hx

/-- Recognition depends only on the tokens that are tested. -/
theorem Recognizes.of_agree (h : g.Recognizes tokens ss i o)
    (hagree : ∀ m, g.Visits tokens ss i (.test m) → tokens'[m]? = tokens[m]?) :
    g.Recognizes tokens' ss i o := by
  induction h with
  | nil => exact .nil
  | empty h ih => exact .empty (ih fun m hm => hagree m (.behind (.empty .nil) hm))
  | shift hx hm _ ih =>
    refine .shift ((hagree _ (.test hm.1)).trans hx) hm (ih fun m hm' => hagree m ?_)
    exact .behind (.shift hx hm .nil) hm'
  | mismatch hid hn => exact .mismatch hid (by rwa [hagree _ (.test hid)])
  | fail he _ ih =>
    exact .fail he fun k r hr => ih k r hr fun m hm => hagree m (.nested hr (he k r hr) hm)
  | rule hr he hc hn _ ihr ihn ih =>
    refine .rule hr he (ihr fun m hm => hagree m (.nested hr he hm)) (fun k' r' hr' hk he' => ?_)
      (ih fun m hm => hagree m (.behind (.rule hr he hc hn .nil) hm))
    exact ihn k' r' hr' hk he' fun m hm => hagree m (.nested hr' he' hm)
  | epsilon hr he hl hn _ ihn ih =>
    refine .epsilon hr he hl (fun k' r' hr' he' => ?_)
      (ih fun m hm => hagree m (.behind (.epsilon hr he hl hn .nil) hm))
    exact ihn k' r' hr' he' fun m hm => hagree m (.nested hr' he' hm)

/-- Whatever matches the symbol begins with a test in its place. -/
inductive TestsFirst (g : Grammar π τ) : Symbol → Prop
  | terminal {id : Terminal.Id} : id ≠ ⟨0⟩ → TestsFirst g (.terminal id)
  | nonTerminal {nt : NonTerminal} {k : Nat} {r : Rule π} {s : Symbol} {ss : List Symbol} :
      g.rule? nt k = some r → r.isEpsilon = false → r.symbols = s :: ss → TestsFirst g s →
      TestsFirst g (.nonTerminal nt)

theorem TestsFirst.visits (h : g.TestsFirst s) (ss : List Symbol) :
    g.Visits tokens (s :: ss) i (.test i) := by
  induction h generalizing ss with
  | terminal hid => exact .test hid
  | nonTerminal hr he hs _ ih => exact .nested hr he (hs ▸ ih _)

/-- Every nonterminal in `E` ends with one in `E`, or as the empty string alone where it could have
begun with a terminal. -/
structure TestsLast (g : Grammar π τ) (E : NonTerminal → Prop) : Prop where
  rule : ∀ {nt k r}, E nt → g.rule? nt k = some r → r.isEpsilon = false →
    ∃ α nt', r.symbols = α ++ [.nonTerminal nt'] ∧ E nt'
  epsilon : ∀ {nt k r}, E nt → g.rule? nt k = some r → r.isEpsilon = true →
    g.TestsFirst (.nonTerminal nt)

theorem TestsLast.visits {E : NonTerminal → Prop} (hE : g.TestsLast E)
    (h : g.Recognizes tokens ss i o) : ∀ α nt f j, o = some (f, j) → ss = α ++ [.nonTerminal nt] →
      E nt → g.Visits tokens ss i (.test j) := by
  induction h with
  | nil => simp
  | empty h ih =>
    intro α nt f j ho hss hnt
    obtain ⟨⟨f', j'⟩, rfl, ⟨⟩⟩ := Option.map_eq_some_iff.mp ho
    obtain ⟨-, hss⟩ | ⟨α', -, rfl⟩ := List.cons_eq_append_iff.mp hss
    · cases hss
    · exact .behind (.empty .nil) (ih α' nt _ _ rfl rfl hnt)
  | shift hx hm _ ih =>
    intro α nt f j ho hss hnt
    obtain ⟨⟨f', j'⟩, rfl, ⟨⟩⟩ := Option.map_eq_some_iff.mp ho
    obtain ⟨-, hss⟩ | ⟨α', -, rfl⟩ := List.cons_eq_append_iff.mp hss
    · cases hss
    · exact .behind (.shift hx hm .nil) (ih α' nt _ _ rfl rfl hnt)
  | mismatch => simp
  | fail => simp
  | rule hr he hc hn h ihr _ ih =>
    intro α nt f j ho hss hnt
    obtain ⟨⟨f', j'⟩, rfl, ⟨⟩⟩ := Option.map_eq_some_iff.mp ho
    obtain ⟨-, hss⟩ | ⟨α', -, rfl⟩ := List.cons_eq_append_iff.mp hss
    · cases hss
      cases h
      obtain ⟨β, nt', hs, hnt'⟩ := hE.rule hnt hr he
      exact .nested hr he (ihr β nt' _ _ rfl hs hnt')
    · exact .behind (.rule hr he hc hn .nil) (ih α' nt _ _ rfl rfl hnt)
  | epsilon hr he hl hn h _ ih =>
    intro α nt f j ho hss hnt
    obtain ⟨⟨f', j'⟩, rfl, ⟨⟩⟩ := Option.map_eq_some_iff.mp ho
    obtain ⟨-, hss⟩ | ⟨α', -, rfl⟩ := List.cons_eq_append_iff.mp hss
    · cases hss
      cases h
      exact (hE.epsilon hnt hr he).visits []
    · exact .behind (.epsilon hr he hl hn .nil) (ih α' nt _ _ rfl rfl hnt)

theorem Recognizes.exists_visits (hll : g.IsLL1) (hε : g.NullableIsEpsilon)
    (hone : ∀ tokens, g.MatchedOnce tokens) {E : NonTerminal → Prop} (hE : g.TestsLast E)
    (hstart : E g.start) (h : g.Recognizes tokens [.nonTerminal g.start] 0 o)
    (hj : j ≤ tokens.length) {us : List τ} (hgen : g.Generates (tokens.take j ++ us)) :
    ∃ m, j ≤ m ∧ g.Visits tokens [.nonTerminal g.start] 0 (.test m) := by
  by_contra hno
  have hlt {m : Nat} (hm : g.Visits tokens [.nonTerminal g.start] 0 (.test m)) : m < j :=
    Nat.lt_of_not_le fun hle => hno ⟨m, hle, hm⟩
  have hagree : g.Recognizes (tokens.take j ++ us) [.nonTerminal g.start] 0 o := by
    refine h.of_agree fun m hm => ?_
    have := hlt hm
    rw [List.getElem?_append_left (by simp; omega), List.getElem?_take_of_lt this]
  obtain ⟨f, hd, hf⟩ := hgen
  have hfound := hagree.complete_start hll hε (hone _) hd hf
  have htest := hlt (hE.visits h [] _ f _ hfound rfl hstart)
  simp only [List.length_append, List.length_take] at htest
  omega

/-- The position of the furthest test ends the longest viable prefix. -/
theorem isGreatest_viable (hll : g.IsLL1) (hε : g.NullableIsEpsilon)
    (hone : ∀ tokens, g.MatchedOnce tokens) {E : NonTerminal → Prop} (hE : g.TestsLast E)
    (hstart : E g.start)
    (hfill : ∀ {nt k r}, g.rule? nt k = some r → ∀ s ∈ r.symbols, g.Fillable P [s])
    (hfillStart : g.Fillable P [.nonTerminal g.start])
    (h : g.Recognizes tokens [.nonTerminal g.start] 0 o)
    (hm : IsLUB {i | g.Visits tokens [.nonTerminal g.start] 0 (.test i)} m) :
    IsGreatest {j | j ≤ tokens.length ∧ g.Viable P tokens j} m := by
  have hbehind {j : Nat} (hj : j ≤ tokens.length) (hv : g.Viable P tokens j) :
      ∃ i, j ≤ i ∧ g.Visits tokens [.nonTerminal g.start] 0 (.test i) := by
    obtain ⟨us, -, hgen⟩ := hv
    exact h.exists_visits hll hε hone hE hstart hj hgen
  have hstarts : g.Continues P tokens [.nonTerminal g.start] 0 :=
    fun f hd => ⟨[], nofun, f, hd, by simp⟩
  -- Some test is made, so the least upper bound is the position of a test.
  obtain ⟨i, -, hi⟩ := hbehind (Nat.zero_le _) (hstarts.viable hfillStart)
  obtain ⟨n, hn⟩ := BddAbove.exists_isGreatest_of_nonempty hm.bddAbove ⟨i, hi⟩
  obtain rfl := hn.isLUB.unique hm
  have hvisit : g.Visits tokens [.nonTerminal g.start] 0 (.test n) := hn.1
  refine ⟨⟨hvisit.le_length (Nat.zero_le _), ?_⟩, fun j hj => ?_⟩
  · exact hvisit.viable hfill (List.forall_mem_singleton.mpr hfillStart) hstarts
  · obtain ⟨i, hji, hi⟩ := hbehind hj.1 hj.2
    exact Nat.le_trans hji (hm.1 hi)

end ActionGrammar.Grammar
