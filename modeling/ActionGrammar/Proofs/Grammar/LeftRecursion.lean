import ActionGrammar.Grammar.LeftRecursion
import ActionGrammar.GrammarText.Token
import ActionGrammar.Proofs.Attempt
import ActionGrammar.Proofs.Grammar.LeftEdge

/-! # Deciding left recursion

A nonterminal becomes known after all that it has left edges to, so the order in
which nonterminals become known ranks them. At any time, what is known of those
that derive the empty string is final, although the walk is still under way. The
walk ends, and it fails exactly if some nonterminal is left-recursive.
-/

namespace ActionGrammar.LeftRecursion

open Attempt Grammar

variable {π τ : Type} {g : Grammar π τ} {known known' known'' : Known} {path : List NonTerminal}
  {nt nt' : NonTerminal} {nullable : Bool} {s : Symbol} {ss : List Symbol}

def walked (known : Known) : List NonTerminal := known.map Prod.fst

/-- What is known is true, and a nonterminal became known after those it has left edges to. -/
inductive Settled (g : Grammar π τ) : Known → Prop
  | nil : Settled g []
  | cons {nt : NonTerminal} {nullable : Bool} {known : Known} : Settled g known →
      g.Declares (.nonTerminal nt) → nt ∉ walked known →
      (nullable = true ↔ g.Nullable [.nonTerminal nt]) →
      (∀ nt', g.LeftEdge nt nt' → nt' ∈ walked known) → Settled g ((nt, nullable) :: known)

namespace Settled

theorem nullable_iff (h : Settled g known) (hm : (nt, nullable) ∈ known) :
    nullable = true ↔ g.Nullable [.nonTerminal nt] := by
  induction h with
  | nil => exact nomatch hm
  | cons _ _ _ hn _ ih =>
    rcases List.mem_cons.mp hm with hm | hm
    · cases hm
      exact hn
    · exact ih hm

theorem mem_of_leftEdge (h : Settled g known) (hm : nt ∈ walked known)
    (he : g.LeftEdge nt nt') : nt' ∈ walked known := by
  induction h with
  | nil => exact nomatch hm
  | cons _ _ _ _ hc ih =>
    rcases List.mem_cons.mp hm with rfl | hm
    · exact List.mem_cons_of_mem _ (hc _ he)
    · exact List.mem_cons_of_mem _ (ih hm)

theorem declares (h : Settled g known) (hm : nt ∈ walked known) :
    g.Declares (.nonTerminal nt) := by
  induction h with
  | nil => exact nomatch hm
  | cons _ hd _ _ _ ih =>
    rcases List.mem_cons.mp hm with rfl | hm
    · exact hd
    · exact ih hm

theorem nodup (h : Settled g known) : (walked known).Nodup := by
  induction h with
  | nil => exact .nil
  | cons _ _ hf _ _ ih => exact List.nodup_cons.mpr ⟨hf, ih⟩

theorem length_le (h : Settled g known) : known.length ≤ g.nonTerminals.size := by
  simpa [walked] using length_le_of_declares h.nodup fun _ hm => h.declares hm

end Settled

/-- How many nonterminals were known when the nonterminal became known, itself included. -/
def rank (nt : NonTerminal) : Known → Nat
  | [] => 0
  | (nt', _) :: known => if nt = nt' then known.length + 1 else rank nt known

theorem rank_le_length (nt : NonTerminal) (known : Known) : rank nt known ≤ known.length := by
  induction known with
  | nil => exact Nat.le_refl _
  | cons entry known ih =>
    rw [rank]
    split
    · exact Nat.le_refl _
    · exact Nat.le_succ_of_le ih

theorem rank_pos (h : nt ∈ walked known) : 0 < rank nt known := by
  induction known with
  | nil => exact nomatch h
  | cons entry known ih =>
    rw [rank]
    split
    · exact Nat.succ_pos _
    · rename_i hne
      exact ih ((List.mem_cons.mp h).resolve_left hne)

theorem Settled.rank_lt (h : Settled g known) (hm : nt ∈ walked known)
    (he : g.LeftEdge nt nt') : rank nt' known < rank nt known := by
  induction h with
  | nil => exact nomatch hm
  | @cons nt₀ _ known hs _ hf _ hc ih =>
    have hne {nt : NonTerminal} (hm : nt ∈ walked known) : nt ≠ nt₀ := fun h => hf (h ▸ hm)
    rcases List.mem_cons.mp hm with rfl | hm
    · rw [rank, rank, if_pos rfl, if_neg (hne (hc _ he))]
      exact Nat.lt_succ_of_le (rank_le_length _ _)
    · rw [rank, rank, if_neg (hne hm), if_neg (hne (hs.mem_of_leftEdge hm he))]
      exact ih hm

/-- All is settled that is known, and the path leads along left edges to what is not. -/
structure Walking (g : Grammar π τ) (path : List NonTerminal) (known : Known) : Prop where
  settled : Settled g known
  nodup : path.Nodup
  declares : ∀ nt ∈ path, g.Declares (.nonTerminal nt)
  fresh : ∀ nt ∈ path, nt ∉ walked known
  edges : path.IsChain fun nt nt' => g.LeftEdge nt' nt

theorem not_mem_walked_of_lookup (h : known.lookup nt = none) : nt ∉ walked known := by
  intro hm
  obtain ⟨entry, he, rfl⟩ := List.mem_map.mp hm
  simpa using List.lookup_eq_none_iff.mp h entry he

namespace Walking

theorem push (h : Walking g path known) (hd : g.Declares (.nonTerminal nt))
    (he : (nt :: path).IsChain fun nt nt' => g.LeftEdge nt' nt) (hf : nt ∉ walked known)
    (hm : nt ∉ path) : Walking g (nt :: path) known :=
  ⟨h.settled, List.nodup_cons.mpr ⟨hm, h.nodup⟩, List.forall_mem_cons.mpr ⟨hd, h.declares⟩,
    List.forall_mem_cons.mpr ⟨hf, h.fresh⟩, he⟩

theorem settle (h : Walking g (nt :: path) known)
    (hn : nullable = true ↔ g.Nullable [.nonTerminal nt])
    (he : ∀ nt', g.LeftEdge nt nt' → nt' ∈ walked known) :
    Walking g path ((nt, nullable) :: known) := by
  obtain ⟨hd, hdeclares⟩ := List.forall_mem_cons.mp h.declares
  obtain ⟨hf, hfresh⟩ := List.forall_mem_cons.mp h.fresh
  obtain ⟨hm, hnodup⟩ := List.nodup_cons.mp h.nodup
  refine ⟨.cons h.settled hd hf hn he, hnodup, hdeclares, fun x hx hx' => ?_, h.edges.tail⟩
  rcases List.mem_cons.mp hx' with rfl | hx'
  · exact hm hx
  · exact hfresh x hx hx'

end Walking

/-- All nonterminals are known that the symbols can begin with, where those in front of them derive
the empty string. -/
def Covers (g : Grammar π τ) (known : Known) (ss : List Symbol) : Prop :=
  ∀ α nt β, ss = α ++ .nonTerminal nt :: β → g.Nullable α → nt ∈ walked known

theorem mem_walked_of_suffix (h : known <:+ known') (hm : nt ∈ walked known) :
    nt ∈ walked known' := List.map_subset _ h.subset hm

theorem Covers.of_suffix (h : Covers g known ss) (hs : known <:+ known') : Covers g known' ss :=
  fun α nt β hss hα => mem_walked_of_suffix hs (h α nt β hss hα)

/-- What a walk over the symbols leaves behind, if it finds no cycle. -/
structure Visited (g : Grammar π τ) (path : List NonTerminal) (known : Known) (ss : List Symbol)
    (nullable : Bool) (known' : Known) : Prop where
  walking : Walking g path known'
  suffix : known <:+ known'
  nullable_iff : nullable = true ↔ g.Nullable ss
  covers : Covers g known' ss

namespace Visited

theorem nil (hw : Walking g path known) : Visited g path known [] true known :=
  ⟨hw, List.suffix_rfl, iff_of_true rfl .nil, fun α nt β h => by simp at h⟩

theorem terminal (hw : Walking g path known) (id : Terminal.Id) :
    Visited g path known [.terminal id] (Symbol.isEmptyString (.terminal id)) known := by
  refine ⟨hw, List.suffix_rfl, ?_, fun α nt β h => ?_⟩
  · simp [Symbol.isEmptyString, nullable_terminal_iff]
  · rcases List.cons_eq_append_iff.mp h with ⟨-, h⟩ | ⟨α', -, h⟩
    · cases h
    · simp at h

theorem nonTerminal (hw : Walking g path known') (hs : known <:+ known')
    (hn : nullable = true ↔ g.Nullable [.nonTerminal nt]) (hm : nt ∈ walked known') :
    Visited g path known [.nonTerminal nt] nullable known' := by
  refine ⟨hw, hs, hn, fun α nt' β h _ => ?_⟩
  rcases List.cons_eq_append_iff.mp h with ⟨-, h⟩ | ⟨α', -, h⟩
  · cases h
    exact hm
  · simp at h

theorem of_lookup (hw : Walking g path known) (hk : known.lookup nt = some nullable) :
    Visited g path known [.nonTerminal nt] nullable known := by
  obtain ⟨l, l', rfl, -⟩ := List.lookup_eq_some_iff.mp hk
  have hm : (nt, nullable) ∈ l ++ (nt, nullable) :: l' := by simp
  exact .nonTerminal hw List.suffix_rfl (hw.settled.nullable_iff hm)
    (List.mem_map_of_mem (f := Prod.fst) hm)

theorem cons (h : Visited g path known [s] true known')
    (h' : Visited g path known' ss nullable known'') :
    Visited g path known (s :: ss) nullable known'' := by
  have hs : g.Nullable [s] := h.nullable_iff.mp rfl
  refine ⟨h'.walking, h.suffix.trans h'.suffix, ?_, fun α nt β hss hα => ?_⟩
  · rw [h'.nullable_iff, nullable_cons_iff]
    exact (and_iff_right hs).symm
  · rcases List.cons_eq_append_iff.mp hss with ⟨rfl, hss⟩ | ⟨α', rfl, rfl⟩
    · cases hss
      exact mem_walked_of_suffix h'.suffix (h.covers [] nt [] rfl .nil)
    · exact h'.covers α' nt β rfl (nullable_cons_iff.mp hα).2

theorem stop (h : Visited g path known [s] false known') :
    Visited g path known (s :: ss) false known' := by
  have hs : ¬ g.Nullable [s] := fun hs => Bool.false_ne_true (h.nullable_iff.mpr hs)
  refine ⟨h.walking, h.suffix, ?_, fun α nt β hss hα => ?_⟩
  · exact iff_of_false Bool.false_ne_true fun h => hs (nullable_cons_iff.mp h).1
  · rcases List.cons_eq_append_iff.mp hss with ⟨rfl, hss⟩ | ⟨α', rfl, -⟩
    · cases hss
      exact h.covers [] nt [] rfl .nil
    · exact absurd (nullable_cons_iff.mp hα).1 hs

end Visited

/-- The walk has closed a cycle of left edges, whose names are told. -/
def FoundCycle (g : Grammar π τ) (e : GrammarError) : Prop :=
  ∃ nts names, g.IsLeftCycle nts ∧ nts.mapM g.nonTerminalName = .ok names ∧
    e = .leftRecursion names

/-- What a visit of a nonterminal at the end of the path is expected to do. -/
def Visits (g : Grammar π τ) (path : List NonTerminal) (visit : NonTerminal → Walk Bool) : Prop :=
  ∀ nt known, Walking g path known → g.Declares (.nonTerminal nt) →
    ((nt :: path).IsChain fun nt nt' => g.LeftEdge nt' nt) →
    (visit nt).Ensures known (Visited g path known [.nonTerminal nt]) (FoundCycle g)

variable {visit : NonTerminal → Walk Bool} {k : Nat} {r : Rule π}

theorem walkSymbols_ensures (hg : g.IsClosed) (hV : Visits g (nt :: path) visit)
    (hr : g.rule? nt k = some r) {α : List Symbol} (hss : r.symbols = α ++ ss)
    (hα : g.Nullable α) (hw : Walking g (nt :: path) known) :
    (walkSymbols visit ss).Ensures known (Visited g (nt :: path) known ss) (FoundCycle g) := by
  induction ss generalizing α known with
  | nil => exact .nil hw
  | cons s ss ih =>
    have hstep (nullable : Bool) (known' : Known)
        (h : Visited g (nt :: path) known [s] nullable known') :
        (if nullable then walkSymbols visit ss else return false).Ensures known'
          (Visited g (nt :: path) known (s :: ss)) (FoundCycle g) := by
      cases nullable with
      | false => exact h.stop
      | true =>
        have hα' : g.Nullable (α ++ [s]) := nullable_append_iff.mpr ⟨hα, h.nullable_iff.mp rfl⟩
        exact (ih (by simp [hss]) hα' h.walking).mono (fun _ _ h' => h.cons h') fun _ h => h
    cases s with
    | terminal id =>
      rw [walkSymbols, ensures_bind, ensures_pure]
      exact hstep _ _ (.terminal hw id)
    | nonTerminal nt' =>
      rw [walkSymbols, ensures_bind]
      have he : g.LeftEdge nt nt' := ⟨k, r, α, ss, hr, hss, hα⟩
      exact (hV nt' known hw (he.declares_right hg)
        (List.isChain_cons_cons.mpr ⟨he, hw.edges⟩)).mono hstep fun _ h => h

theorem walkRules_ensures (hg : g.IsClosed) (hV : Visits g (nt :: path) visit)
    {rs : List (Rule π)} (hrs : ∀ r ∈ rs, ∃ k, g.rule? nt k = some r)
    (hw : Walking g (nt :: path) known) :
    (walkRules visit rs).Ensures known
      (fun nullable known' => Walking g (nt :: path) known' ∧ known <:+ known' ∧
        (nullable = true ↔ ∃ r ∈ rs, g.Nullable r.symbols) ∧
        ∀ r ∈ rs, Covers g known' r.symbols) (FoundCycle g) := by
  induction rs generalizing known with
  | nil => exact ⟨hw, List.suffix_rfl, by simp, fun _ h => nomatch h⟩
  | cons r rs ih =>
    obtain ⟨k, hr⟩ := hrs r List.mem_cons_self
    rw [walkRules, ensures_bind]
    refine (walkSymbols_ensures hg hV hr (α := []) rfl .nil hw).mono (fun here known₁ h => ?_)
      fun _ h => h
    rw [ensures_bind]
    refine (ih (fun r hr => hrs r (List.mem_cons_of_mem _ hr)) h.walking).mono
      (fun there known₂ h' => ?_) fun _ h => h
    obtain ⟨hw', hsuf, hn, hc⟩ := h'
    refine ⟨hw', h.suffix.trans hsuf, ?_, List.forall_mem_cons.mpr ⟨h.covers.of_suffix hsuf, hc⟩⟩
    rw [Bool.or_eq_true, h.nullable_iff, hn, List.exists_mem_cons_iff]

theorem mapM_nonTerminalName_isOk {nts : List NonTerminal}
    (h : ∀ nt ∈ nts, g.Declares (.nonTerminal nt)) :
    ∃ names, nts.mapM g.nonTerminalName = .ok names :=
  mapM_isOk fun nt hnt => ⟨_, nonTerminalName_eq_ok (h nt hnt)⟩

theorem failWithCycle_ensures {Q : Bool → Known → Prop} (hw : Walking g path known)
    (he : (nt :: path).IsChain fun nt nt' => g.LeftEdge nt' nt) (hm : nt ∈ path) :
    (failWithCycle g path nt).Ensures known Q (FoundCycle g) := by
  obtain ⟨inner, outer, rfl⟩ := List.append_of_mem hm
  obtain ⟨-, -, hdisj⟩ := List.nodup_append.mp hw.nodup
  have hinner : ∀ x ∈ inner, (x != nt) = true := fun x hx => by
    simpa using hdisj x hx nt List.mem_cons_self
  have htake : (inner ++ nt :: outer).takeWhile (· != nt) = inner := by
    rw [List.takeWhile_append_of_pos hinner, List.takeWhile_cons_of_neg (by simp), List.append_nil]
  have hcycle : g.IsLeftCycle (nt :: inner.reverse ++ [nt]) := by
    refine ⟨nt, inner.reverse, rfl, ?_, ?_⟩
    · rw [List.nodup_cons, List.mem_reverse, List.nodup_reverse]
      exact ⟨fun h => hdisj nt h nt List.mem_cons_self rfl, (List.nodup_append.mp hw.nodup).1⟩
    · have hpre : nt :: inner ++ [nt] <+: nt :: (inner ++ nt :: outer) := ⟨outer, by simp⟩
      have := List.isChain_reverse.mpr <| List.IsChain.prefix he hpre
      simpa using this
  have hd : ∀ x ∈ nt :: inner.reverse ++ [nt], g.Declares (.nonTerminal x) := fun x hx =>
    hw.declares x (by simp at hx ⊢; tauto)
  obtain ⟨names, hnames⟩ := mapM_nonTerminalName_isOk hd
  rw [failWithCycle, ensures_bind, cycleNames, htake, hnames]
  exact ensures_ofExcept_ok rfl ⟨_, names, hcycle, hnames, rfl⟩

/-- A visit does what is expected if nested visits do. The room for these is never used up. -/
theorem visit_ensures (hg : g.IsClosed) {room : Nat}
    (hroom : g.nonTerminals.size ≤ room + path.length)
    (ih : ∀ nt room', room = room' + 1 →
      Visits g (nt :: path) (LeftRecursion.visit g room' (nt :: path))) :
    Visits g path (LeftRecursion.visit g room path) := by
  intro nt known hw hd he
  unfold LeftRecursion.visit
  simp only [ensures_bind, ensures_get]
  split
  · rename_i nullable hk
    exact .of_lookup hw hk
  · rename_i hk
    split
    · rename_i hm
      exact failWithCycle_ensures hw he (List.contains_iff_mem.mp hm)
    · rename_i hm
      have hw' := hw.push hd he (not_mem_walked_of_lookup hk) (by simpa using hm)
      rw [ensures_bind, rules_eq_ok hd]
      refine ensures_ofExcept_ok rfl ?_
      split
      · have := length_le_of_declares hw'.nodup hw'.declares
        simp only [List.length_cons] at this
        omega
      · rename_i room'
        have hrules (r : Rule π) :
            (∃ k, g.rule? nt k = some r) ↔ r ∈ g.nonTerminals[nt.index].rules := by
          simp only [rule?_eq_getElem? (rules_eq_ok hd), List.mem_iff_getElem?]
        rw [ensures_bind]
        refine (walkRules_ensures hg (ih nt room' rfl) (fun r hr => (hrules r).mpr hr) hw').mono
          (fun nullable known' h => ?_) fun _ h => h
        obtain ⟨hw'', hsuf, hn, hc⟩ := h
        have hn' : nullable = true ↔ g.Nullable [.nonTerminal nt] := by
          rw [hn, nullable_nonTerminal_iff]
          simp only [← hrules]
          constructor
          · rintro ⟨r, ⟨k, hr⟩, h⟩
            exact ⟨k, r, hr, h⟩
          · rintro ⟨k, r, hr, h⟩
            exact ⟨r, ⟨k, hr⟩, h⟩
        have hedges (nt' : NonTerminal) (he : g.LeftEdge nt nt') : nt' ∈ walked known' := by
          obtain ⟨k, r, α, β, hr, hs, hα⟩ := he
          exact hc r ((hrules r).mp ⟨k, hr⟩) α nt' β hs hα
        simp only [ensures_bind, ensures_modify, ensures_pure]
        exact .nonTerminal (hw''.settle hn' hedges) (hsuf.trans (List.suffix_cons _ _)) hn'
          List.mem_cons_self

theorem visits_visit (hg : g.IsClosed) (room : Nat) (path : List NonTerminal)
    (hroom : g.nonTerminals.size ≤ room + path.length) :
    Visits g path (LeftRecursion.visit g room path) := by
  induction room generalizing path with
  | zero => exact visit_ensures hg hroom fun _ _ h => nomatch h
  | succ room ih =>
    refine visit_ensures hg hroom fun nt room' h => ?_
    obtain rfl := Nat.succ.inj h
    exact ih _ (by simp only [List.length_cons]; omega)

theorem walkAll_ensures (hg : g.IsClosed) {nts : List NonTerminal}
    (hnts : ∀ nt ∈ nts, g.Declares (.nonTerminal nt)) (hs : Settled g known) :
    (walkAll g nts).Ensures known
      (fun _ known' => Settled g known' ∧ known <:+ known' ∧ ∀ nt ∈ nts, nt ∈ walked known')
      (FoundCycle g) := by
  induction nts generalizing known with
  | nil => exact ⟨hs, List.suffix_rfl, fun _ h => nomatch h⟩
  | cons nt nts ih =>
    obtain ⟨hd, hnts⟩ := List.forall_mem_cons.mp hnts
    have hw : Walking g [] known :=
      ⟨hs, .nil, fun _ h => (nomatch h), fun _ h => (nomatch h), .nil⟩
    rw [walkAll, ensures_bind]
    refine (visits_visit hg _ [] (Nat.le_refl _) nt known hw hd (.singleton nt)).mono
      (fun _ known₁ h => ?_) fun _ h => h
    refine (ih hnts h.walking.settled).mono (fun _ known₂ h' => ?_) fun _ h => h
    obtain ⟨hs', hsuf, hm⟩ := h'
    refine ⟨hs', h.suffix.trans hsuf, List.forall_mem_cons.mpr ⟨?_, hm⟩⟩
    exact mem_walked_of_suffix hsuf (h.covers [] nt [] rfl .nil)

theorem mem_allNonTerminals_iff : nt ∈ g.allNonTerminals ↔ g.Declares (.nonTerminal nt) := by
  obtain ⟨i⟩ := nt
  simp [allNonTerminals, Declares]

/-- Either the checked nonterminals are ranked, or a cycle is found. -/
theorem check_outcome (hg : g.IsClosed) :
    (check g = .ok () ∧ ∃ rank, g.IsRank rank) ∨ ∃ e, check g = .error e ∧ FoundCycle g e := by
  have hnts : ∀ nt ∈ g.start :: g.allNonTerminals, g.Declares (.nonTerminal nt) :=
    List.forall_mem_cons.mpr ⟨hg.start, fun _ => mem_allNonTerminals_iff.mp⟩
  have h := walkAll_ensures hg hnts .nil
  unfold check
  rcases hrun : (walkAll g (g.start :: g.allNonTerminals)).runFrom [] with ⟨e | ⟨⟩, known⟩
  · exact .inr ⟨e, rfl, h.of_error hrun⟩
  · obtain ⟨hs, -, hm⟩ := h.of_ok hrun
    have hall {nt : NonTerminal} (hd : g.Declares (.nonTerminal nt)) : nt ∈ walked known :=
      hm nt (List.mem_cons_of_mem _ (mem_allNonTerminals_iff.mpr hd))
    refine .inl ⟨rfl, fun nt => rank nt known, fun hd => rank_pos (hall hd), fun nt => ?_, ?_⟩
    · exact Nat.le_trans (rank_le_length nt known) hs.length_le
    · exact fun he => hs.rank_lt (hall he.declares_left) he

theorem exists_isRank (hg : g.IsClosed) (h : check g = .ok ()) : ∃ rank, g.IsRank rank := by
  rcases check_outcome hg with ⟨-, hrank⟩ | ⟨e, he, -⟩
  · exact hrank
  · exact nomatch h.symm.trans he

theorem visit_congr {room room' : Nat}
    (h : g.Declares (.nonTerminal nt) → nt ∉ path → ∃ m m', room = m + 1 ∧ room' = m' + 1 ∧
      LeftRecursion.visit g m (nt :: path) = LeftRecursion.visit g m' (nt :: path)) :
    LeftRecursion.visit g room path nt = LeftRecursion.visit g room' path nt := by
  unfold LeftRecursion.visit
  refine bind_congr fun known => ?_
  split
  · rfl
  · split
    · rfl
    · rename_i hm
      by_cases hd : g.Declares (.nonTerminal nt)
      · obtain ⟨m, m', rfl, rfl, heq⟩ := h hd (by simpa using hm)
        simp only [heq]
      · rw [rules_eq_error hd]
        rfl

theorem visit_eq_of_le {room room' : Nat} (hle : room ≤ room')
    (hroom : g.nonTerminals.size ≤ room + path.length) (hnd : path.Nodup)
    (hd : ∀ nt ∈ path, g.Declares (.nonTerminal nt)) :
    LeftRecursion.visit g room path = LeftRecursion.visit g room' path := by
  induction room generalizing room' path with
  | zero =>
    refine funext fun nt => visit_congr fun hnt hm => ?_
    have := length_le_of_declares (List.nodup_cons.mpr ⟨hm, hnd⟩)
      (List.forall_mem_cons.mpr ⟨hnt, hd⟩)
    simp only [List.length_cons] at this
    omega
  | succ room ih =>
    refine funext fun nt => visit_congr fun hnt hm => ?_
    obtain ⟨m', rfl⟩ := Nat.exists_eq_add_of_le' (Nat.lt_of_lt_of_le (Nat.succ_pos room) hle)
    refine ⟨room, m', rfl, rfl, ih (Nat.le_of_succ_le_succ hle) ?_ ?_ ?_⟩
    · simp only [List.length_cons]
      omega
    · exact List.nodup_cons.mpr ⟨hm, hnd⟩
    · exact List.forall_mem_cons.mpr ⟨hnt, hd⟩

/-- A grammar that was built passes the check if no nonterminal is left-recursive, and otherwise
is refused with the names of a cycle. The walk ends by itself: it never takes more room than
there are nonterminals. -/
theorem check_decides {b : Builder τ} {r : Registry π} (hb : b.build r = .ok g) :
    (check g = .ok () ↔ ∀ nt, ¬ g.IsLeftRecursive nt) ∧
    ((∃ cycle, check g = .error (.leftRecursion cycle)) ↔ ∃ nt, g.IsLeftRecursive nt) ∧
    ∀ room, g.nonTerminals.size ≤ room →
      LeftRecursion.visit g room [] = LeftRecursion.visit g g.nonTerminals.size [] := by
  refine ⟨?_, ?_, fun room hroom => (visit_eq_of_le hroom (Nat.le_refl _) .nil nofun).symm⟩
  · rcases check_outcome (Builder.isClosed_of_build hb) with ⟨hok, rank, hrank⟩ | ⟨e, he, hcycle⟩
    · exact iff_of_true hok fun nt => hrank.not_isLeftRecursive
    · obtain ⟨nts, _, hnts, -⟩ := hcycle
      obtain ⟨nt, hnt⟩ := hnts.isLeftRecursive
      exact iff_of_false (fun h => nomatch h.symm.trans he) fun h => h nt hnt
  · rcases check_outcome (Builder.isClosed_of_build hb) with ⟨hok, rank, hrank⟩ | ⟨e, he, hcycle⟩
    · exact iff_of_false (fun ⟨_, h⟩ => nomatch h.symm.trans hok)
        fun ⟨nt, hnt⟩ => hrank.not_isLeftRecursive hnt
    · obtain ⟨nts, names, hnts, -, rfl⟩ := hcycle
      exact iff_of_true ⟨names, he⟩ hnts.isLeftRecursive

def optionalBuilder : Builder GrammarText.Token where
  terminals := [(emptyStringName, none), ("int", some (.reference .int))]
  nonTerminals :=
    [("Start", [⟨["int"], [.constant (.int 0)]⟩]),
      ("Sum", [⟨["int"], [.constant (.int 0)]⟩,
        ⟨["Operand", emptyStringName, "Sum", "int"], [.constant (.int 0)]⟩]),
      ("Operand", [⟨["int"], [.constant (.int 0)]⟩, ⟨[emptyStringName], [.constant (.int 0)]⟩])]
  start := none

theorem check_decides_optional : ∃ (g : Grammar Unit GrammarText.Token) (cycle : List String),
    optionalBuilder.build ⟨[]⟩ = .ok g ∧ check g = .error (.leftRecursion cycle) := by
  obtain ⟨g, hg, hrule, hrule'⟩ : ∃ g : Grammar Unit GrammarText.Token,
      optionalBuilder.build ⟨[]⟩ = .ok g ∧
      g.rule? ⟨1⟩ 1 = some ⟨[.nonTerminal ⟨2⟩, .terminal ⟨0⟩, .nonTerminal ⟨1⟩, .terminal ⟨1⟩],
        [.constant (.int 0)]⟩ ∧
      g.rule? ⟨2⟩ 1 = some ⟨[.terminal ⟨0⟩], [.constant (.int 0)]⟩ := ⟨_, rfl, rfl, rfl⟩
  have hn : g.Nullable [.nonTerminal ⟨2⟩, .terminal ⟨0⟩] :=
    .node hrule' (.empty .nil) (.empty .nil)
  obtain ⟨cycle, hc⟩ := (check_decides hg).2.1.mpr ⟨⟨1⟩, .single ⟨1, _, _, _, hrule, rfl, hn⟩⟩
  exact ⟨g, cycle, hg, hc⟩

end ActionGrammar.LeftRecursion
