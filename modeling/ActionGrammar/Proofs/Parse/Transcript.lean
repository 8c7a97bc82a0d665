import ActionGrammar.Proofs.Parse.Visits

/-! # Transcripts

The events of a parse that goes on without an error, as far as the grammar and
the tokens determine them: only the values of reductions are left open. What is
said about the events of such a parse is proved by induction on its transcript.
-/

namespace ActionGrammar

variable {π τ : Type}

/-- What a parse does from a position: it matches one symbol, matches symbols one after the other,
or tries numbered rules of a nonterminal. -/
inductive Task (π : Type) where
  | symbol (s : Symbol)
  | symbols (ss : List Symbol)
  | rules (nt : NonTerminal) (rules : List (Nat × Rule π))

def Task.Tries : Task π → Prop
  | .rules _ rs => ∃ kr ∈ rs, kr.2.isEpsilon = false
  | _ => True

namespace Event

def visit? : Event → Option (Visit τ)
  | .enter nt i => some (.expand nt i)
  | .shift _ i | .mismatch _ i => some (.test i)
  | _ => none

def Shifts (es : List Event) (m : Nat) : Prop := ∃ id, .shift id m ∈ es

def TestsFrom (es : List Event) (i : Nat) : Prop :=
  ∃ m id, i ≤ m ∧ (.shift id m ∈ es ∨ .mismatch id m ∈ es)

variable {es es' : List Event} {i j m : Nat}

theorem Shifts.mono (h : Shifts es m) (hsub : es ⊆ es') : Shifts es' m := by
  obtain ⟨id, h⟩ := h
  exact ⟨id, hsub h⟩

theorem Shifts.testsFrom (h : Shifts es m) (hi : i ≤ m) : TestsFrom es i := by
  obtain ⟨id, h⟩ := h
  exact ⟨m, id, hi, .inl h⟩

theorem TestsFrom.mono (h : TestsFrom es i) (hsub : es ⊆ es') : TestsFrom es' i := by
  obtain ⟨m, id, hm, h⟩ := h
  exact ⟨m, id, hm, h.imp (@hsub _) (@hsub _)⟩

theorem TestsFrom.of_le (h : TestsFrom es j) (hij : i ≤ j) : TestsFrom es i := by
  obtain ⟨m, id, hm, h⟩ := h
  exact ⟨m, id, Nat.le_trans hij hm, h⟩

/-- How an attempt at a rule ends, which matched up to a position or did not match. -/
inductive Closes (nt : NonTerminal) (k i : Nat) : Option Nat → Event → Prop
  | backtrack : Closes nt k i none (.backtrack nt k i)
  | reduce {j : Nat} {v : Value} : Closes nt k i (some j) (.reduce nt k v)

/-- How an expansion ends after its rules were tried, one of which matched up to a position, or
none. -/
inductive Concludes (nt : NonTerminal) (i : Nat) (rules : List (Nat × Rule π)) :
    Option Nat → Option Nat → List Event → Prop
  | matched {j : Nat} : Concludes nt i rules (some j) (some j) [.exit nt true j]
  | epsilon {k : Nat} {v : Value} : Parser.EpsilonAmong rules (some k) →
      Concludes nt i rules none (some i) [.reduce nt k v, .exit nt true i]
  | fail : Parser.EpsilonAmong rules none →
      Concludes nt i rules none none [.exit nt false i]

end Event

namespace Grammar

variable [Token τ]

/-- The events of a task from a position, from first to last, and the position behind what it
matches. At most one rule matches of those that are not the empty string alone. -/
inductive Transcript (g : Grammar π τ) (tokens : List τ) :
    Task π → Nat → Option Nat → List Event → Prop
  | empty {i : Nat} : Transcript g tokens (.symbol (.terminal ⟨0⟩)) i (some i) []
  | shift {id : Terminal.Id} {i : Nat} {x : τ} : tokens[i]? = some x → g.Matches id x →
      Transcript g tokens (.symbol (.terminal id)) i (some (i + 1)) [.shift id i]
  | mismatch {id : Terminal.Id} {i : Nat} : id ≠ ⟨0⟩ →
      (∀ x, tokens[i]? = some x → ¬ g.Matches id x) →
      Transcript g tokens (.symbol (.terminal id)) i none [.mismatch id i]
  | expand {nt : NonTerminal} {rules : List (Rule π)} {i : Nat} {o o' : Option Nat}
      {es es' : List Event} : g.rules nt = .ok rules →
      Transcript g tokens (.rules nt ((List.range rules.length).zip rules)) i o es →
      Event.Concludes nt i ((List.range rules.length).zip rules) o o' es' →
      Transcript g tokens (.symbol (.nonTerminal nt)) i o' (.enter nt i :: (es ++ es'))
  | nil {i : Nat} : Transcript g tokens (.symbols []) i (some i) []
  | stop {s : Symbol} {ss : List Symbol} {i : Nat} {es : List Event} :
      Transcript g tokens (.symbol s) i none es →
      Transcript g tokens (.symbols (s :: ss)) i none es
  | cons {s : Symbol} {ss : List Symbol} {i j : Nat} {o : Option Nat} {es es' : List Event} :
      Transcript g tokens (.symbol s) i (some j) es → Transcript g tokens (.symbols ss) j o es' →
      Transcript g tokens (.symbols (s :: ss)) i o (es ++ es')
  | done {nt : NonTerminal} {i : Nat} : Transcript g tokens (.rules nt []) i none []
  | skip {nt : NonTerminal} {k : Nat} {r : Rule π} {rest : List (Nat × Rule π)} {i : Nat}
      {o : Option Nat} {es : List Event} : r.isEpsilon = true →
      Transcript g tokens (.rules nt rest) i o es →
      Transcript g tokens (.rules nt ((k, r) :: rest)) i o es
  | attempt {nt : NonTerminal} {k : Nat} {r : Rule π} {rest : List (Nat × Rule π)} {i : Nat}
      {o o' : Option Nat} {e : Event} {es es' : List Event} : r.isEpsilon = false →
      Transcript g tokens (.symbols r.symbols) i o es → Event.Closes nt k i o e →
      Transcript g tokens (.rules nt rest) i o' es' → o = none ∨ o' = none →
      Transcript g tokens (.rules nt ((k, r) :: rest)) i (o.or o')
        (.attempt nt k i :: (es ++ e :: es'))

variable {g : Grammar π τ} {tokens : List τ} {task : Task π} {i : Nat} {o : Option Nat}
  {es : List Event}

/-- A task as a matter of recognition. -/
def Achieves (g : Grammar π τ) (tokens : List τ) : Task π → Nat → Option Nat → Prop
  | .symbol s, i, o => ∃ x, g.Recognizes tokens [s] i x ∧ x.map Prod.snd = o
  | .symbols ss, i, o => ∃ x, g.Recognizes tokens ss i x ∧ x.map Prod.snd = o
  | .rules _ rs, i, none => ∀ kr ∈ rs, kr.2.isEpsilon = false →
      g.Recognizes tokens kr.2.symbols i none
  | .rules _ rs, i, some j => ∃ kr ∈ rs, kr.2.isEpsilon = false ∧
      (∃ c, g.Recognizes tokens kr.2.symbols i (some (c, j))) ∧
      ∀ kr' ∈ rs, kr'.1 ≠ kr.1 → kr'.2.isEpsilon = false →
        g.Recognizes tokens kr'.2.symbols i none

theorem Achieves.conclude {nt : NonTerminal} {rules : List (Rule π)} {o' : Option Nat}
    {es' : List Event} (hrules : g.rules nt = .ok rules)
    (h : g.Achieves tokens (.rules nt ((List.range rules.length).zip rules)) i o)
    (hc : Event.Concludes nt i ((List.range rules.length).zip rules) o o' es') :
    g.Achieves tokens (.symbol (.nonTerminal nt)) i o' := by
  have hmem {k : Nat} {r : Rule π} := Parser.mem_numbered_iff (k := k) (r := r) hrules
  cases hc with
  | matched =>
    obtain ⟨⟨k, r⟩, hr, he, ⟨c, hc⟩, hothers⟩ := h
    exact ⟨_, .rule (hmem.mp hr) he hc (fun k' r' hr' => hothers (k', r') (hmem.mpr hr')) .nil, rfl⟩
  | epsilon hε =>
    obtain ⟨⟨r, hr, he⟩, hlast⟩ := hε
    exact ⟨_, .epsilon (hmem.mp hr) he (fun k' r' hr' => hlast (k', r') (hmem.mpr hr'))
      (fun k' r' hr' => h (k', r') (hmem.mpr hr')) .nil, rfl⟩
  | fail hε =>
    have he {k' : Nat} {r' : Rule π} (hr' : g.rule? nt k' = some r') := hε (k', r') (hmem.mpr hr')
    exact ⟨none, .fail (fun _ _ => he) fun k' r' hr' => h (k', r') (hmem.mpr hr') (he hr'), rfl⟩

theorem Transcript.achieves (h : g.Transcript tokens task i o es) : g.Achieves tokens task i o := by
  induction h with
  | empty => exact ⟨_, .empty .nil, rfl⟩
  | shift hx hm => exact ⟨_, .shift hx hm .nil, rfl⟩
  | mismatch hid hn => exact ⟨none, .mismatch hid hn, rfl⟩
  | expand hrules _ hc ih => exact ih.conclude hrules hc
  | nil => exact ⟨_, .nil, rfl⟩
  | stop _ ih =>
    obtain ⟨x, hx, ho⟩ := ih
    rw [Option.map_eq_none_iff] at ho
    exact ⟨none, (ho ▸ hx).cons_none, rfl⟩
  | cons _ _ ih ih' =>
    obtain ⟨x, hx, ho⟩ := ih
    obtain ⟨x', hx', rfl⟩ := ih'
    obtain ⟨⟨f, j⟩, rfl, rfl⟩ := Option.map_eq_some_iff.mp ho
    exact ⟨_, hx.cons hx', by cases x' <;> rfl⟩
  | done => exact nofun
  | @skip _ _ _ _ _ o _ he _ ih =>
    cases o with
    | none => exact List.forall_mem_cons.mpr ⟨fun he' => by simp [he] at he', ih⟩
    | some j =>
      obtain ⟨kr, hmem, he', hc, hothers⟩ := ih
      refine ⟨kr, List.mem_cons_of_mem _ hmem, he', hc, ?_⟩
      exact List.forall_mem_cons.mpr ⟨fun _ he' => by simp [he] at he', hothers⟩
  | @attempt _ _ _ _ _ o o' _ _ _ he _ _ _ hnone ih ih' =>
    obtain ⟨x, hx, ho⟩ := ih
    cases x with
    | none =>
      obtain rfl : none = o := ho
      rw [Option.none_or]
      cases o' with
      | none => exact List.forall_mem_cons.mpr ⟨fun _ => hx, ih'⟩
      | some j =>
        obtain ⟨kr, hmem, he', hc, hothers⟩ := ih'
        refine ⟨kr, List.mem_cons_of_mem _ hmem, he', hc, ?_⟩
        exact List.forall_mem_cons.mpr ⟨fun _ _ => hx, hothers⟩
    | some x =>
      obtain rfl : some x.2 = o := ho
      obtain rfl : o' = none := hnone.resolve_left nofun
      refine ⟨_, List.mem_cons_self, he, ⟨x.1, hx⟩, ?_⟩
      exact List.forall_mem_cons.mpr ⟨fun hne => absurd rfl hne, fun kr hkr _ => ih' kr hkr⟩

def VisitsIn (g : Grammar π τ) (tokens : List τ) : Task π → Nat → Visit τ → Prop
  | .symbol s, i, x => g.Visits tokens [s] i x
  | .symbols ss, i, x => g.Visits tokens ss i x
  | .rules _ rs, i, x => ∃ kr ∈ rs, kr.2.isEpsilon = false ∧ g.Visits tokens kr.2.symbols i x

theorem Transcript.visits (h : g.Transcript tokens task i o es) {x : Visit τ} :
    ∀ e ∈ es, e.visit? = some x → g.VisitsIn tokens task i x := by
  induction h with
  | empty | nil | done => exact nofun
  | shift _ hm =>
    intro e he hx
    obtain rfl := List.mem_singleton.mp he
    cases hx
    exact .test hm.1
  | mismatch hid _ =>
    intro e he hx
    obtain rfl := List.mem_singleton.mp he
    cases hx
    exact .test hid
  | expand hrules _ hc ih =>
    intro e he hx
    rcases List.mem_cons.mp he with rfl | he
    · cases hx
      exact .expand
    · rcases List.mem_append.mp he with he | he
      · obtain ⟨⟨k, r⟩, hr, hε, hv⟩ := ih e he hx
        exact .nested ((Parser.mem_numbered_iff hrules).mp hr) hε hv
      · cases hc <;> simp only [List.mem_cons, List.not_mem_nil, or_false] at he
        · subst he
          exact nomatch hx
        · rcases he with rfl | rfl <;> exact nomatch hx
        · subst he
          exact nomatch hx
  | stop _ ih => exact fun e he hx => (ih e he hx).append _
  | cons h _ ih ih' =>
    intro e he hx
    rcases List.mem_append.mp he with he | he
    · exact (ih e he hx).append _
    · obtain ⟨y, hy, ho⟩ := h.achieves
      obtain ⟨⟨f, j⟩, rfl, rfl⟩ := Option.map_eq_some_iff.mp ho
      exact .behind hy (ih' e he hx)
  | skip _ _ ih =>
    intro e he hx
    obtain ⟨kr, hmem, hv⟩ := ih e he hx
    exact ⟨kr, List.mem_cons_of_mem _ hmem, hv⟩
  | attempt hε _ hclose _ _ ih ih' =>
    intro e he hx
    simp only [List.mem_cons, List.mem_append] at he
    rcases he with rfl | he | rfl | he
    · exact nomatch hx
    · exact ⟨_, List.mem_cons_self, hε, ih e he hx⟩
    · cases hclose <;> exact nomatch hx
    · obtain ⟨kr, hmem, hv⟩ := ih' e he hx
      exact ⟨kr, List.mem_cons_of_mem _ hmem, hv⟩

theorem Transcript.shifts (h : g.Transcript tokens task i o es) :
    ∀ j, o = some j → i ≤ j ∧ (i < j → Event.Shifts es (j - 1)) := by
  induction h with
  | empty | nil =>
    rintro j ⟨⟩
    exact ⟨Nat.le_refl _, fun h => absurd h (Nat.lt_irrefl _)⟩
  | shift =>
    rintro j ⟨⟩
    exact ⟨Nat.le_succ _, fun _ => ⟨_, List.mem_singleton_self _⟩⟩
  | mismatch | stop | done => exact nofun
  | expand _ _ hc ih =>
    rintro j rfl
    cases hc with
    | matched => exact (ih j rfl).imp_right fun h hlt => (h hlt).mono (by simp)
    | epsilon => exact ⟨Nat.le_refl _, fun h => absurd h (Nat.lt_irrefl _)⟩
  | @cons _ _ _ j' _ _ _ _ _ ih ih' =>
    intro j ho
    obtain ⟨hle, hshift⟩ := ih j' rfl
    obtain ⟨hle', hshift'⟩ := ih' j ho
    refine ⟨Nat.le_trans hle hle', fun hlt => ?_⟩
    rcases Nat.eq_or_lt_of_le hle' with rfl | hlt'
    · exact (hshift hlt).mono (List.subset_append_left _ _)
    · exact (hshift' hlt').mono (List.subset_append_right _ _)
  | skip _ _ ih => exact ih
  | attempt _ _ _ _ _ ih ih' =>
    intro j ho
    rcases Option.or_eq_some_iff.mp ho with ho | ⟨-, ho⟩
    · exact (ih j ho).imp_right fun h hlt => (h hlt).mono (by simp)
    · exact (ih' j ho).imp_right fun h hlt => (h hlt).mono fun e he => by simp [he]

theorem Transcript.tests_of_none (hg : ∀ {nt rs}, g.rules nt = .ok rs → rs ≠ [])
    (h : g.Transcript tokens task i o es) : o = none → task.Tries → Event.TestsFrom es i := by
  induction h with
  | empty | shift | nil => exact nofun
  | mismatch => exact fun _ _ => ⟨_, _, Nat.le_refl _, .inr (List.mem_singleton_self _)⟩
  | @expand _ rules _ _ _ _ _ hrules _ hc ih =>
    rintro rfl -
    cases hc with
    | fail hε =>
      obtain ⟨r, rest, rfl⟩ := List.exists_cons_of_ne_nil (hg hrules)
      have hmem : (0, r) ∈ (List.range (r :: rest).length).zip (r :: rest) :=
        Parser.mem_range_zip.mpr rfl
      exact (ih rfl ⟨_, hmem, hε _ hmem⟩).mono (by simp)
  | stop _ ih => exact fun ho _ => ih ho trivial
  | cons h _ _ ih' =>
    intro ho _
    exact ((ih' ho trivial).of_le (h.shifts _ rfl).1).mono (List.subset_append_right _ _)
  | done =>
    rintro - ⟨kr, hmem, -⟩
    exact nomatch hmem
  | skip he _ ih =>
    rintro ho ⟨kr, hmem, hkr⟩
    rcases List.mem_cons.mp hmem with rfl | hmem
    · exact absurd (he.symm.trans hkr) (by simp)
    · exact ih ho ⟨kr, hmem, hkr⟩
  | attempt _ _ _ _ _ ih _ =>
    intro ho _
    exact (ih (Option.or_eq_none_iff.mp ho).1 trivial).mono (by simp)

theorem Transcript.ends_or_testsFrom (hg : ∀ {nt rs}, g.rules nt = .ok rs → rs ≠ [])
    {ss : List Symbol} (h : g.Transcript tokens (.symbols ss) i o es) :
    o = some i ∨ Event.TestsFrom es i := by
  cases o with
  | none => exact .inr (h.tests_of_none hg rfl trivial)
  | some j =>
    obtain ⟨hle, hshift⟩ := h.shifts j rfl
    rcases Nat.eq_or_lt_of_le hle with rfl | hlt
    · exact .inl rfl
    · exact .inr ((hshift hlt).testsFrom (Nat.le_sub_one_of_lt hlt))

theorem Transcript.testsFrom_of_shifts (hg : ∀ {nt rs}, g.rules nt = .ok rs → rs ≠ [])
    (h : g.Transcript tokens task i o es) {m : Nat} :
    Event.Shifts es m → o = some (m + 1) ∨ Event.TestsFrom es (m + 1) := by
  induction h with
  | empty | nil | done | mismatch => simp [Event.Shifts]
  | shift =>
    rintro ⟨id, hid⟩
    cases List.mem_singleton.mp hid
    exact .inl rfl
  | expand _ _ hc ih =>
    rintro ⟨id, hid⟩
    have hes : Event.Shifts _ m := ⟨id, by cases hc <;> simpa using hid⟩
    rcases ih hes with rfl | ht
    · cases hc
      exact .inl rfl
    · exact .inr (ht.mono (by simp))
  | stop _ ih => exact ih
  | cons _ h' ih ih' =>
    rintro ⟨id, hid⟩
    rcases List.mem_append.mp hid with hid | hid
    · rcases ih ⟨id, hid⟩ with ho | ht
      · obtain rfl := Option.some.inj ho
        exact (h'.ends_or_testsFrom hg).imp_right (·.mono (List.subset_append_right _ _))
      · exact .inr (ht.mono (List.subset_append_left _ _))
    · exact (ih' ⟨id, hid⟩).imp_right (·.mono (List.subset_append_right _ _))
  | skip _ _ ih => exact ih
  | @attempt _ _ _ _ _ _ _ _ es es' _ _ hclose _ hnone ih ih' =>
    rintro ⟨id, hid⟩
    have hid' : .shift id m ∈ es ∨ .shift id m ∈ es' := by cases hclose <;> simpa using hid
    rcases hid' with hid | hid
    · rcases ih ⟨id, hid⟩ with rfl | ht
      · exact .inl rfl
      · exact .inr (ht.mono (by simp))
    · rcases ih' ⟨id, hid⟩ with rfl | ht
      · obtain rfl := hnone.resolve_right nofun
        exact .inl rfl
      · exact .inr (ht.mono fun e he => by simp [he])

def Fails (g : Grammar π τ) (tokens : List τ) (es : List Event) (nt : NonTerminal) (i k : Nat)
    (r : Rule π) : Prop :=
  .backtrack nt k i ∈ es ∧ g.Recognizes tokens r.symbols i none

def Tried (g : Grammar π τ) (tokens : List τ) (es : List Event) (nt : NonTerminal) (i k : Nat)
    (r : Rule π) : Prop :=
  .attempt nt k i ∈ es ∧
    (g.Fails tokens es nt i k r ∨ ∃ x, g.Recognizes tokens r.symbols i (some x))

theorem Tried.mono {es' : List Event} {nt : NonTerminal} {k : Nat} {r : Rule π}
    (h : g.Tried tokens es nt i k r) (hsub : es ⊆ es') : g.Tried tokens es' nt i k r :=
  ⟨hsub h.1, h.2.imp_left fun ⟨hb, hn⟩ => ⟨hsub hb, hn⟩⟩

theorem Transcript.tried (h : g.Transcript tokens task i o es) :
    ∀ nt rs, task = .rules nt rs → ∀ kr ∈ rs, kr.2.isEpsilon = false →
      g.Tried tokens es nt i kr.1 kr.2 := by
  induction h with
  | empty | shift | mismatch | expand | nil | stop | cons => exact nofun
  | done =>
    rintro _ _ ⟨⟩
    exact nofun
  | skip he _ ih =>
    rintro _ _ ⟨⟩
    exact List.forall_mem_cons.mpr ⟨fun he' => by simp [he] at he', ih _ _ rfl⟩
  | attempt he h hclose _ _ _ ih' =>
    rintro _ _ ⟨⟩
    refine List.forall_mem_cons.mpr ⟨fun _ => ⟨List.mem_cons_self, ?_⟩, fun kr hkr hkr' => ?_⟩
    · obtain ⟨x, hx, ho⟩ := h.achieves
      cases x with
      | none =>
        subst ho
        cases hclose
        exact .inl ⟨by simp, hx⟩
      | some x => exact .inr ⟨x, hx⟩
    · exact (ih' _ _ rfl kr hkr hkr').mono fun e he => by simp [he]

/-- Where a nonterminal is entered, all of its rules are tried that are not the empty string
alone. -/
theorem Transcript.entered (h : g.Transcript tokens task i o es) {nt : NonTerminal} {j k : Nat}
    {r : Rule π} (hr : g.rule? nt k = some r) (he : r.isEpsilon = false) :
    .enter nt j ∈ es → g.Tried tokens es nt j k r := by
  induction h with
  | empty | nil | done | shift | mismatch => simp
  | @expand _ _ _ _ _ es _ hrules h hc ih =>
    intro hmem
    rcases List.mem_cons.mp hmem with heq | hmem
    · cases heq
      have htried := h.tried _ _ rfl (k, r) ((Parser.mem_numbered_iff hrules).mpr hr) he
      exact htried.mono (by simp)
    · have hes : .enter nt j ∈ es := by cases hc <;> simpa using hmem
      exact (ih hes).mono (by simp)
  | stop _ ih => exact ih
  | cons _ _ ih ih' =>
    intro hmem
    rcases List.mem_append.mp hmem with hmem | hmem
    · exact (ih hmem).mono (List.subset_append_left _ _)
    · exact (ih' hmem).mono (List.subset_append_right _ _)
  | skip _ _ ih => exact ih
  | @attempt _ _ _ _ _ _ _ _ es es' _ _ hclose _ _ ih ih' =>
    intro hmem
    have hmem' : .enter nt j ∈ es ∨ .enter nt j ∈ es' := by cases hclose <;> simpa using hmem
    rcases hmem' with hmem | hmem
    · exact (ih hmem).mono (by simp)
    · exact (ih' hmem).mono fun e he => by simp [he]

end Grammar

end ActionGrammar
