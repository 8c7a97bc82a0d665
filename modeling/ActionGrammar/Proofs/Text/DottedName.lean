import ActionGrammar.Text.DottedName

/-! # Splitting and joining dotted names

A name is the join of its parts between dots, and parts without dots are the
parts of their join. Where the join of parts is a dotted name, each part is one.
-/

namespace ActionGrammar.DottedName

theorem segments_eq_splitOn (cs : List Char) : segments cs = cs.splitOn '.' := by
  induction cs with
  | nil => rfl
  | cons c cs ih =>
    rw [segments, ih, List.splitOn_cons_eq_if_modifyHead]
    by_cases hc : c = '.'
    · rw [if_pos hc, if_pos (by simpa using hc)]
    · rw [if_neg hc, if_neg (by simpa using hc)]
      obtain ⟨s, ss, hs⟩ := List.exists_cons_of_ne_nil (List.splitOn_ne_nil '.' cs)
      rw [hs]
      rfl

theorem split_ne_nil (name : String) : split name ≠ [] := by
  simp [split, segments_eq_splitOn, List.splitOn_ne_nil]

theorem join_split (name : String) : join (split name) = name := by
  rw [← String.toList_inj, join, String.toList_intercalate, split, List.map_map]
  simp [segments_eq_splitOn, List.intercalate_splitOn, Function.comp_def]

theorem split_join {parts : List String} (hne : parts ≠ [])
    (hdot : ∀ p ∈ parts, '.' ∉ p.toList) : split (join parts) = parts := by
  have h : segments (join parts).toList = parts.map String.toList := by
    rw [segments_eq_splitOn, join, String.toList_intercalate]
    exact List.splitOn_intercalate '.' (by simpa using hdot) (by simpa using hne)
  rw [split, h]
  simp [Function.comp_def]

theorem segments_join {parts : List String} (hne : parts ≠ []) :
    segments (join parts).toList = parts.flatMap fun p => segments p.toList := by
  induction parts with
  | nil => exact absurd rfl hne
  | cons p parts ih =>
    cases parts with
    | nil => simp [join]
    | cons q parts =>
      have hcons : (join (p :: q :: parts)).toList =
          p.toList ++ '.' :: (join (q :: parts)).toList := by
        simp [join, String.intercalate_cons_cons]
      rw [hcons, segments_eq_splitOn, List.splitOn_append_cons_self, ← segments_eq_splitOn,
        ← segments_eq_splitOn, ih (List.cons_ne_nil _ _)]
      rfl

theorem isWellFormed_join_iff {parts : List String} (hne : parts ≠ []) :
    isWellFormed (join parts) = true ↔ ∀ p ∈ parts, isWellFormed p = true := by
  simp only [isWellFormed, segments_join hne, List.all_flatMap, List.all_eq_true]

theorem join_join_cons {parts rest : List String} (hne : parts ≠ []) :
    join (join parts :: rest) = join (parts ++ rest) := by
  cases rest with
  | nil => simp [join]
  | cons r rest =>
    rw [join, String.intercalate_cons_cons, join, join,
      String.intercalate_append_of_ne_nil hne (List.cons_ne_nil _ _)]

theorem append_of_cutAtLastDot {cs owner member : List Char}
    (h : cutAtLastDot cs = some (owner, member)) : cs = owner ++ '.' :: member := by
  induction cs generalizing owner with
  | nil => exact nomatch h
  | cons c cs ih =>
    rw [cutAtLastDot] at h
    split at h
    · rename_i owner' member' hcut
      cases h
      rw [ih hcut, List.cons_append]
    · split at h
      · rename_i hc
        cases h
        rw [hc, List.nil_append]
      · exact nomatch h

theorem append_of_splitMember? {name owner member : String}
    (h : splitMember? name = some (owner, member)) : name = owner ++ "." ++ member := by
  obtain ⟨⟨o, m⟩, hcut, heq⟩ := Option.map_eq_some_iff.mp h
  cases heq
  rw [← String.toList_inj, append_of_cutAtLastDot hcut]
  simp

/-! ### Identifiers -/

theorem not_mem_of_isIdentifier {cs : List Char} (h : isIdentifier cs = true) : '.' ∉ cs := by
  intro hdot
  cases cs with
  | nil => exact nomatch hdot
  | cons c cs =>
    rw [isIdentifier, Bool.and_eq_true, List.all_eq_true] at h
    rcases List.mem_cons.mp hdot with rfl | hdot
    · exact absurd h.1 (by decide)
    · exact absurd (h.2 '.' hdot) (by decide)

theorem segments_of_not_mem {cs : List Char} (h : '.' ∉ cs) : segments cs = [cs] := by
  induction cs with
  | nil => rfl
  | cons c cs ih =>
    rw [List.mem_cons, not_or] at h
    obtain ⟨hc, hcs⟩ := h
    rw [segments, if_neg (Ne.symm hc), ih hcs]

theorem isIdentifier_iff {name : String} :
    isIdentifier name.toList = true ↔ isWellFormed name = true ∧ '.' ∉ name.toList := by
  constructor
  · intro h
    have hdot := not_mem_of_isIdentifier h
    exact ⟨by simpa [isWellFormed, segments_of_not_mem hdot] using h, hdot⟩
  · rintro ⟨h, hdot⟩
    simpa [isWellFormed, segments_of_not_mem hdot] using h

theorem isIdentifier_of_mem_split {name s : String} (h : isWellFormed name = true)
    (hs : s ∈ split name) : isIdentifier s.toList = true := by
  obtain ⟨cs, hcs, rfl⟩ := List.mem_map.mp hs
  rw [String.toList_ofList]
  exact List.all_eq_true.mp h cs hcs

/-! ### The last dot -/

theorem append_dot_append (owner member : String) :
    owner ++ "." ++ member = join [owner, member] := by
  simp [join, String.intercalate_cons_cons]

theorem isWellFormed_append_dot_iff {owner member : String} :
    isWellFormed (owner ++ "." ++ member) = true ↔
      isWellFormed owner = true ∧ isWellFormed member = true := by
  rw [append_dot_append, isWellFormed_join_iff (List.cons_ne_nil _ _)]
  simp

theorem cutAtLastDot_eq_none_iff {cs : List Char} : cutAtLastDot cs = none ↔ '.' ∉ cs := by
  induction cs with
  | nil => simp [cutAtLastDot]
  | cons c cs ih =>
    rw [cutAtLastDot, List.mem_cons, not_or, ← ih]
    cases cutAtLastDot cs with
    | some parts => simp
    | none => simp [eq_comm]

theorem cutAtLastDot_append_of_some {cs ds owner member : List Char}
    (h : cutAtLastDot ds = some (owner, member)) :
    cutAtLastDot (cs ++ ds) = some (cs ++ owner, member) := by
  induction cs with
  | nil => exact h
  | cons c cs ih => rw [List.cons_append, cutAtLastDot, ih, List.cons_append]

theorem splitMember?_append_dot {owner member : String} (h : '.' ∉ member.toList) :
    splitMember? (owner ++ "." ++ member) = some (owner, member) := by
  have hdot : cutAtLastDot ('.' :: member.toList) = some ([], member.toList) := by
    rw [cutAtLastDot, cutAtLastDot_eq_none_iff.mpr h]
    rfl
  have hcut : cutAtLastDot (owner.toList ++ '.' :: member.toList) =
      some (owner.toList ++ [], member.toList) := cutAtLastDot_append_of_some hdot
  simp [splitMember?, hcut]

theorem not_mem_of_cutAtLastDot {cs owner member : List Char}
    (h : cutAtLastDot cs = some (owner, member)) : '.' ∉ member := by
  induction cs generalizing owner with
  | nil => exact nomatch h
  | cons c cs ih =>
    rw [cutAtLastDot] at h
    split at h
    · rename_i owner' member' hcut
      cases h
      exact ih hcut
    · rename_i hcut
      split at h
      · cases h
        exact cutAtLastDot_eq_none_iff.mp hcut
      · exact nomatch h

theorem not_mem_of_splitMember? {name owner member : String}
    (h : splitMember? name = some (owner, member)) : '.' ∉ member.toList := by
  obtain ⟨⟨o, m⟩, hcut, heq⟩ := Option.map_eq_some_iff.mp h
  cases heq
  rw [String.toList_ofList]
  exact not_mem_of_cutAtLastDot hcut

end ActionGrammar.DottedName
