import ActionGrammar.Proofs.GrammarText.Slices

/-! # Stretches of garbage

A malformed slice takes the unrecognized slices behind it into one stretch of garbage.
A number that does not fit always begins a stretch of its own, so malformed slices in
a row are one token exactly if there is no such number behind the first of them.
-/

namespace ActionGrammar.GrammarText

def EndsMalformed (ss : List Slice) : Prop := ∃ s ∈ ss.getLast?, s.IsMalformed

theorem not_endsMalformed_nil : ¬ EndsMalformed [] := by
  rintro ⟨s, hs, -⟩
  exact nomatch hs

@[simp] theorem endsMalformed_concat {ss : List Slice} {s : Slice} :
    EndsMalformed (ss ++ [s]) ↔ s.IsMalformed := by
  simp [EndsMalformed]

/-- Where the garbage begins that is open behind slices. -/
def garbageStart? : (position : Nat) → (pending : Option Nat) → List Slice → Option Nat
  | _, pending, [] => pending
  | position, pending, s :: ss =>
    garbageStart? (position + s.size) (s.garbageStart? position pending) ss

section

variable {position : Nat} {pending : Option Nat} {s : Slice} {ss : List Slice} {i j : Nat}

theorem garbageStart?_append (ss ss' : List Slice) :
    garbageStart? position pending (ss ++ ss') =
      garbageStart? (position + textSize ss) (garbageStart? position pending ss) ss' := by
  induction ss generalizing position pending with
  | nil => rfl
  | cons s ss ih => simp only [List.cons_append, garbageStart?, ih, textSize_cons, Nat.add_assoc]

theorem garbageStart?_isSome_iff :
    (s.garbageStart? position pending).isSome ↔ s.IsMalformed := by
  unfold Slice.garbageStart? Slice.IsMalformed
  cases s.kind with
  | none => simp
  | some k => cases hd : decode? k s.chars <;> simp [hd]

theorem garbageStart?_fresh (h : s.IsMalformed) (hfresh : s.IsMisfit ∨ pending = none) :
    s.garbageStart? position pending = some position := by
  unfold Slice.garbageStart?
  split
  · rename_i hk
    rcases hfresh with hs | rfl
    · exact nomatch hk.symm.trans hs.kind
    · rfl
  · rename_i k hk
    rw [h k hk]
    rfl

theorem garbageStart?_eq_none_iff (position : Nat) :
    garbageStart? position none ss = none ↔ ¬ EndsMalformed ss := by
  cases ss using List.reverseRecOn with
  | nil => simp [garbageStart?, not_endsMalformed_nil]
  | append_singleton ss s =>
    rw [garbageStart?_append, endsMalformed_concat, ← garbageStart?_isSome_iff,
      Option.not_isSome_iff_eq_none]
    rfl

theorem garbageStart?_unrecognized (h : ∀ s ∈ ss, s.kind = none) :
    garbageStart? position (some i) ss = some i := by
  induction ss generalizing position with
  | nil => rfl
  | cons s ss ih =>
    obtain ⟨hs, hss⟩ := List.forall_mem_cons.mp h
    rw [garbageStart?, Slice.garbageStart?, hs]
    exact ih hss

/-! ### Garbage that is open becomes a token -/

theorem garbage_mem_close_iff : .garbage i j ∈ close pending position ↔
    pending = some i ∧ j = position := by
  cases pending <;> simp [close, Token.garbage, eq_comm]

theorem garbage_mem_tokens_iff
    (h : ∀ k, s.kind = some k → ∀ payload, decode? k s.chars ≠ some (.garbage, payload)) :
    .garbage i j ∈ s.tokens position pending ↔
      s.kind ≠ none ∧ pending = some i ∧ j = position := by
  rw [← garbage_mem_close_iff]
  constructor
  · intro hg
    refine (mem_tokens hg).elim (fun hclose => ⟨?_, hclose⟩) ?_
    · rintro hk
      simp [Slice.tokens, hk] at hg
    · rintro ⟨k, hk, hd, -⟩
      exact absurd hd (h k hk _)
  · rintro ⟨hk, hg⟩
    unfold Slice.tokens
    split
    · exact absurd ‹_› hk
    · exact hg
    · exact List.mem_append_left _ hg

theorem garbage_mem_tokensFrom_iff (h : ∀ s ∈ ss, ∀ k, s.kind = some k →
    ∀ payload, decode? k s.chars ≠ some (.garbage, payload)) :
    .garbage i j ∈ tokensFrom position pending ss ↔ ∃ done rest, ss = done ++ rest ∧
      garbageStart? position pending done = some i ∧ j = position + textSize done ∧
      ∀ s ∈ rest.head?, s.kind ≠ none := by
  induction ss generalizing position pending with
  | nil =>
    rw [tokensFrom, garbage_mem_close_iff]
    constructor
    · rintro ⟨hpending, rfl⟩
      exact ⟨[], [], rfl, hpending, rfl, by simp⟩
    · rintro ⟨done, rest, hcut, hpending, rfl, -⟩
      obtain ⟨rfl, rfl⟩ := List.nil_eq_append_iff.mp hcut
      exact ⟨hpending, rfl⟩
  | cons s ss ih =>
    obtain ⟨hs, hss⟩ := List.forall_mem_cons.mp h
    rw [tokensFrom_cons, List.mem_append, garbage_mem_tokens_iff hs, ih hss]
    constructor
    · rintro (⟨hk, hpending, rfl⟩ | ⟨done, rest, rfl, hpending, rfl, hrest⟩)
      · exact ⟨[], s :: ss, rfl, hpending, rfl, by simpa using hk⟩
      · exact ⟨s :: done, rest, rfl, hpending, by rw [textSize_cons, Nat.add_assoc], hrest⟩
    · rintro ⟨_ | ⟨s', done⟩, rest, hcut, hpending, rfl, hrest⟩
      · obtain rfl : s :: ss = rest := hcut
        exact .inl ⟨hrest s rfl, hpending, rfl⟩
      · obtain ⟨rfl, rfl⟩ := List.cons.inj hcut
        exact .inr ⟨done, rest, rfl, hpending, by rw [textSize_cons, Nat.add_assoc], hrest⟩

end

/-- Behind the slices `before`, garbage begins at `s` and goes on along `run`. -/
structure Opens (before : List Slice) (s : Slice) (run : List Slice) : Prop where
  malformed : s.IsMalformed
  fresh : s.IsMisfit ∨ ¬ EndsMalformed before
  unrecognized : ∀ r ∈ run, r.kind = none

theorem Opens.garbageStart?_eq {before run : List Slice} {s : Slice} (h : Opens before s run) :
    garbageStart? 0 none (before ++ s :: run) = some (textSize before) := by
  have hfresh := h.fresh.imp_right (garbageStart?_eq_none_iff 0).mpr
  rw [garbageStart?_append, garbageStart?, Nat.zero_add, garbageStart?_fresh h.malformed hfresh]
  exact garbageStart?_unrecognized h.unrecognized

theorem EndsMalformed.exists_opens {cs : List Char} {ss : List Slice} (h : EndsMalformed ss)
    (hss : ∀ s ∈ ss, s ∈ slices cs) :
    ∃ before s run, ss = before ++ s :: run ∧ Opens before s run := by
  -- From the end, because the garbage grows there.
  induction ss using List.reverseRecOn with
  | nil => exact absurd h not_endsMalformed_nil
  | append_singleton ss s ih =>
    obtain ⟨hss, hs⟩ := List.forall_mem_append.mp hss
    have hs : s ∈ slices cs := List.forall_mem_singleton.mp hs
    have hmalformed : s.IsMalformed := endsMalformed_concat.mp h
    rcases (Slice.isMalformed_iff hs).mp hmalformed with hk | hmisfit
    · by_cases hend : EndsMalformed ss
      · obtain ⟨before, s', run, rfl, ho⟩ := ih hend hss
        have hrun : ∀ r ∈ run ++ [s], r.kind = none :=
          List.forall_mem_append.mpr ⟨ho.unrecognized, List.forall_mem_singleton.mpr hk⟩
        exact ⟨before, s', run ++ [s], by simp, ho.malformed, ho.fresh, hrun⟩
      · exact ⟨ss, s, [], rfl, hmalformed, .inr hend, by simp⟩
    · exact ⟨ss, s, [], rfl, hmalformed, .inl hmisfit, by simp⟩

/-- Garbage is a malformed slice with the unrecognized slices behind it, and it begins where a
number does not fit or where no malformed slice stands in front. -/
theorem garbage_mem_lex_iff {source : String} {i j : Nat} :
    .garbage i j ∈ lex source ↔ ∃ before s run rest,
      slices source.toList = before ++ s :: run ++ rest ∧ Opens before s run ∧
      i = textSize before ∧ j = textSize (before ++ s :: run) ∧ ∀ o ∈ rest.head?, o.kind ≠ none := by
  have hss : ∀ s ∈ slices source.toList, ∀ k, s.kind = some k →
      ∀ payload, decode? k s.chars ≠ some (.garbage, payload) :=
    fun s hs k hk payload hd => decode?_ne_garbage (isLexeme_of_mem_slices hs hk) hd rfl
  rw [lex, garbage_mem_tokensFrom_iff hss]
  constructor
  · rintro ⟨done, rest, hcut, hstart, rfl, hrest⟩
    have hend : EndsMalformed done := by
      by_contra hend
      rw [← garbageStart?_eq_none_iff 0, hstart] at hend
      exact nomatch hend
    have hdone : ∀ s ∈ done, s ∈ slices source.toList :=
      fun s hs => hcut ▸ List.mem_append_left rest hs
    obtain ⟨before, s, run, rfl, ho⟩ := hend.exists_opens hdone
    rw [ho.garbageStart?_eq, Option.some.injEq] at hstart
    exact ⟨before, s, run, rest, hcut, ho, hstart.symm, Nat.zero_add _, hrest⟩
  · rintro ⟨before, s, run, rest, hcut, ho, rfl, rfl, hrest⟩
    exact ⟨before ++ s :: run, rest, hcut, ho.garbageStart?_eq, (Nat.zero_add _).symm, hrest⟩

/-! ### Garbage side by side -/

theorem eq_garbage {source : String} {t : Token} (h : t ∈ lex source) (hk : t.kind = .garbage) :
    t = .garbage t.start t.stop := by
  rcases comesFrom_of_mem_tokensFrom h with ⟨start, stop, rfl⟩ | ⟨_, s, _, k, hcut, hs, hd, -⟩
  · rfl
  · have hl : IsLexeme k s.chars := isLexeme_of_mem_slices (hcut ▸ List.mem_append_cons_self) hs
    exact absurd hk (decode?_ne_garbage hl hd)

theorem textSize_eq_zero {ss : List Slice} (hss : ∀ s ∈ ss, s.chars ≠ []) (h : textSize ss = 0) :
    ss = [] := by
  cases ss with
  | nil => rfl
  | cons s ss =>
    have hpos : 0 < s.size := byteSize_pos (hss s List.mem_cons_self)
    rw [textSize_cons] at h
    omega

theorem append_inj_of_textSize {cs : List Char} {xs xs' ys ys' : List Slice}
    (h : slices cs = xs ++ ys) (h' : slices cs = xs' ++ ys')
    (hsize : textSize xs = textSize xs') : xs = xs' ∧ ys = ys' := by
  have hne : ∀ s ∈ slices cs, s.chars ≠ [] := fun s hs => (isCut_of_mem_slices hs).nonempty
  rcases List.append_eq_append_iff.mp (h.symm.trans h') with ⟨zs, rfl, rfl⟩ | ⟨zs, rfl, rfl⟩
  · have hzs : zs = [] :=
      textSize_eq_zero (fun s hs => hne s (by simp [h, hs])) (by simpa using hsize.symm)
    simp [hzs]
  · have hzs : zs = [] :=
      textSize_eq_zero (fun s hs => hne s (by simp [h, hs])) (by simpa using hsize)
    simp [hzs]

theorem isInfix_of_touching {position : Nat} {ts : List Token} {text : List Char} {t u : Token}
    (h : Tiles position ts text) (ht : t ∈ ts) (hu : u ∈ ts) (htu : t.stop = u.start) :
    [t, u] <:+: ts := by
  have hlt : t.start < t.stop := h.start_lt_stop ht
  obtain ⟨before, after, rfl⟩ := List.append_of_mem ht
  obtain ⟨-, hafter, hbefore⟩ := List.pairwise_append.mp h.pairwise
  rcases List.mem_append.mp hu with hu | hu
  · have := (hbefore u hu t List.mem_cons_self).1
    omega
  · rcases List.mem_cons.mp hu with rfl | hu
    · omega
    · obtain _ | ⟨v, after⟩ := after
      · exact nomatch hu
      · rcases List.mem_cons.mp hu with rfl | hu
        · exact ⟨before, after, by simp⟩
        · obtain ⟨htv, hvu⟩ := List.pairwise_cons.mp hafter
          have := (htv v List.mem_cons_self).2
          have := (List.rel_of_pairwise_cons hvu hu).1
          omega

/-- A stretch of malformed slices that goes no further on either side. -/
structure IsMalformedStretch (ss before stretch after : List Slice) : Prop where
  cut : ss = before ++ stretch ++ after
  nonempty : stretch ≠ []
  malformed : ∀ s ∈ stretch, s.IsMalformed
  left : ¬ EndsMalformed before
  right : ∀ o ∈ after.head?, ¬ o.IsMalformed

theorem Opens.endsMalformed {before run : List Slice} {s : Slice} (h : Opens before s run) :
    EndsMalformed (before ++ s :: run) := by
  by_contra hend
  rw [← garbageStart?_eq_none_iff 0, h.garbageStart?_eq] at hend
  exact nomatch hend

theorem exists_run (ss : List Slice) : ∃ run rest, ss = run ++ rest ∧
    (∀ r ∈ run, r.kind = none) ∧ ∀ o ∈ rest.head?, o.kind ≠ none := by
  refine ⟨ss.takeWhile (·.kind.isNone), ss.dropWhile (·.kind.isNone),
    List.takeWhile_append_dropWhile.symm, ?_, ?_⟩
  · intro r hr
    simpa using List.mem_takeWhile_imp hr
  · intro o ho
    have := List.head?_dropWhile_not (fun s : Slice => s.kind.isNone) ss
    rw [Option.mem_def.mp ho] at this
    simpa [← Option.isSome_iff_ne_none] using this

theorem touching_garbage_iff {source : String} {i : Nat} :
    (∃ t u, [t, u] <:+: lex source ∧ t.kind = .garbage ∧ u.kind = .garbage ∧
      t.stop = i ∧ u.start = i) ↔
    ∃ before s o after, slices source.toList = before ++ s :: o :: after ∧
      s.IsMalformed ∧ o.IsMisfit ∧ i = textSize (before ++ [s]) := by
  constructor
  · rintro ⟨t, u, hinfix, ht, hu, rfl, hut⟩
    have htmem : t ∈ lex source := hinfix.subset (by simp)
    have humem : u ∈ lex source := hinfix.subset (by simp)
    rw [eq_garbage htmem ht, garbage_mem_lex_iff] at htmem
    rw [eq_garbage humem hu, garbage_mem_lex_iff] at humem
    obtain ⟨before, s, run, rest, hcut, ho, -, hstop, -⟩ := htmem
    obtain ⟨before', o, run', rest', hcut', ho', hstart, -, -⟩ := humem
    -- The second one begins right behind the slices of the first one.
    have hplace : textSize (before ++ s :: run) = textSize before' := by
      rw [← hstop, ← hut, hstart]
    rw [List.append_assoc before'] at hcut'
    obtain ⟨rfl, rfl⟩ := append_inj_of_textSize hcut hcut' hplace
    obtain ⟨l, hl, hmalformed⟩ := ho.endsMalformed
    obtain ⟨front, hfront⟩ := List.getLast?_eq_some_iff.mp hl
    rw [hfront] at hcut hstop
    refine ⟨front, l, o, run' ++ rest', by simp [hcut], hmalformed, ?_, hstop⟩
    exact ho'.fresh.resolve_right (not_not_intro ho.endsMalformed)
  · rintro ⟨before, s, o, after, hcut, hs, ho, rfl⟩
    have hcut : slices source.toList = (before ++ [s]) ++ o :: after := by simpa using hcut
    obtain ⟨before', s', run, hfront, hopens⟩ := (endsMalformed_concat.mpr hs).exists_opens
      fun s hs => hcut ▸ List.mem_append_left (o :: after) hs
    obtain ⟨run', rest, rfl, hrun', hrest⟩ := exists_run after
    have ht : .garbage (textSize before') (textSize (before ++ [s])) ∈ lex source := by
      rw [garbage_mem_lex_iff]
      refine ⟨before', s', run, o :: (run' ++ rest), hfront ▸ hcut, hopens, rfl, by rw [hfront], ?_⟩
      simp [ho.kind]
    have hu : .garbage (textSize (before ++ [s])) (textSize (before ++ [s] ++ o :: run')) ∈
        lex source := by
      rw [garbage_mem_lex_iff]
      exact ⟨before ++ [s], o, run', rest, by simp [hcut], ⟨ho.isMalformed, .inl ho, hrun'⟩, rfl,
        rfl, hrest⟩
    exact ⟨_, _, isInfix_of_touching (tiles_lex source) ht hu rfl, rfl, rfl, rfl, rfl⟩

theorem IsMalformedStretch.garbage_mem_iff {source : String} {before stretch after : List Slice}
    (h : IsMalformedStretch (slices source.toList) before stretch after) :
    .garbage (textSize before) (textSize (before ++ stretch)) ∈ lex source ↔
      ∀ s ∈ stretch.tail, ¬ s.IsMisfit := by
  have hcut : slices source.toList = before ++ (stretch ++ after) := by
    rw [h.cut, List.append_assoc]
  rw [garbage_mem_lex_iff]
  constructor
  · rintro ⟨before', s, run, rest, hcut', ho, hstart, hstop, -⟩
    obtain ⟨hrun, rfl⟩ := append_inj_of_textSize h.cut hcut' hstop
    rw [List.append_assoc] at hcut'
    obtain ⟨rfl, -⟩ := append_inj_of_textSize hcut hcut' hstart
    obtain rfl : stretch = s :: run := List.append_cancel_left hrun
    intro r hr hmisfit
    exact nomatch (ho.unrecognized r hr).symm.trans hmisfit.kind
  · intro htail
    obtain ⟨s, run, rfl⟩ := List.exists_cons_of_ne_nil h.nonempty
    obtain ⟨hs, hrun⟩ := List.forall_mem_cons.mp h.malformed
    refine ⟨before, s, run, after, h.cut, ⟨hs, .inr h.left, fun r hr => ?_⟩, rfl, rfl, ?_⟩
    · have hmem : r ∈ slices source.toList := by simp [hcut, hr]
      exact ((Slice.isMalformed_iff hmem).mp (hrun r hr)).resolve_right (htail r hr)
    · intro o ho hk
      exact h.right o ho (Slice.isMalformed_of_kind_eq_none hk)

/-- Two tokens of garbage touch exactly where a number that does not fit comes right behind a
malformed slice, so a stretch of malformed slices is one token exactly if only its first slice may
be such a number. -/
theorem lex_splits_garbage (source : String) :
    (∀ i, (∃ t u, [t, u] <:+: lex source ∧ t.kind = .garbage ∧ u.kind = .garbage ∧
        t.stop = i ∧ u.start = i) ↔
      ∃ before s o after, slices source.toList = before ++ s :: o :: after ∧
        s.IsMalformed ∧ o.IsMisfit ∧ i = textSize (before ++ [s])) ∧
    (∀ before stretch after, IsMalformedStretch (slices source.toList) before stretch after →
      (.garbage (textSize before) (textSize (before ++ stretch)) ∈ lex source ↔
        ∀ s ∈ stretch.tail, ¬ s.IsMisfit)) :=
  ⟨fun _ => touching_garbage_iff, fun _ _ _ h => h.garbage_mem_iff⟩

def splitText : String := "~$99999999999999999999"

def unknownSlice : Slice := ⟨none, ['~']⟩

def misfitSlice : Slice := ⟨some .result, '$' :: List.replicate 20 '9'⟩

theorem isMisfit_misfitSlice : misfitSlice.IsMisfit := by
  have hdigits : IsDigits (List.replicate 20 '9') := by
    refine ⟨List.cons_ne_nil _ _, fun c hc => ?_⟩
    rw [List.eq_of_mem_replicate hc]
    rfl
  exact ⟨_, hdigits, by decide +kernel, rfl⟩

theorem isMalformedStretch_splitText :
    IsMalformedStretch (slices splitText.toList) [] [unknownSlice, misfitSlice] [] where
  cut := by decide +kernel
  nonempty := List.cons_ne_nil _ _
  malformed := by
    rw [List.forall_mem_cons, List.forall_mem_singleton]
    exact ⟨Slice.isMalformed_of_kind_eq_none rfl, isMisfit_misfitSlice.isMalformed⟩
  left := not_endsMalformed_nil
  right := fun _ ho => nomatch ho

/-- The stretch is not one token, because two tokens touch inside of it. -/
theorem lex_splits_garbage_splitText :
    slices splitText.toList = [] ++ unknownSlice :: misfitSlice :: [] ∧
    (∃ t u, [t, u] <:+: lex splitText ∧ t.kind = .garbage ∧ u.kind = .garbage ∧
      t.stop = 1 ∧ u.start = 1) ∧
    IsMalformedStretch (slices splitText.toList) [] [unknownSlice, misfitSlice] [] ∧
    .garbage 0 22 ∉ lex splitText := by
  obtain ⟨htouching, hstretch⟩ := lex_splits_garbage splitText
  have hcut : slices splitText.toList = [] ++ unknownSlice :: misfitSlice :: [] := by
    decide +kernel
  have hunknown : unknownSlice.IsMalformed := Slice.isMalformed_of_kind_eq_none rfl
  refine ⟨hcut, ?_, isMalformedStretch_splitText, fun hmem => ?_⟩
  · exact (htouching 1).mpr ⟨[], _, _, [], hcut, hunknown, isMisfit_misfitSlice, by decide⟩
  · have hsize : textSize ([] ++ [unknownSlice, misfitSlice]) = 22 := by decide +kernel
    have hnone := (hstretch _ _ _ isMalformedStretch_splitText).mp (by rwa [hsize])
    exact hnone misfitSlice (by simp) isMisfit_misfitSlice

/-- Garbage is not one token wherever it stands side by side. -/
theorem splitText_not_coalesced :
    lex splitText = [.garbage 0 1, .garbage 1 22] ∧
    ¬ ∀ source t u, [t, u] <:+: lex source →
      ¬ (t.kind = .garbage ∧ u.kind = .garbage ∧ t.stop = u.start) := by
  have hlex : lex splitText = [.garbage 0 1, .garbage 1 22] := by decide +kernel
  refine ⟨hlex, fun h => ?_⟩
  have hinfix : [.garbage 0 1, .garbage 1 22] <:+: lex splitText := ⟨[], [], hlex.symm⟩
  exact h splitText _ _ hinfix ⟨rfl, rfl, rfl⟩

end ActionGrammar.GrammarText
