import Mathlib
import ActionGrammar.Proofs.Text.DottedName

/-! # The grammar of dotted names

A dotted name is spelled by identifiers, with dots in between. There is one way to spell it, which
is what it is split into from the left. The last identifier is what stands behind the last dot, and
the others spell what stands in front of it.
-/

namespace ActionGrammar.DottedName

def initials : Set Char := Set.Icc 'A' 'Z' ∪ Set.Icc 'a' 'z' ∪ {'_'}

def subsequents : Set Char := initials ∪ Set.Icc '0' '9'

/-- `[A-Za-z_][A-Za-z0-9_]*` -/
def identifiers : Set String :=
  {s | ∃ c cs, s.toList = c :: cs ∧ c ∈ initials ∧ ∀ d ∈ cs, d ∈ subsequents}

theorem isInitial_iff {c : Char} : isInitial c = true ↔ c ∈ initials := by
  simp [isInitial, initials, Char.isAlpha, Char.isUpper, Char.isLower, Char.le_def]

theorem isSubsequent_iff {c : Char} : isSubsequent c = true ↔ c ∈ subsequents := by
  have hletter : isSubsequent c = (isInitial c || c.isDigit) := by
    simp [isSubsequent, isInitial, Char.isAlphanum, Bool.or_assoc]
  rw [hletter, Bool.or_eq_true, isInitial_iff]
  simp [subsequents, Char.isDigit, Char.le_def]

theorem isIdentifier_iff_mem {s : String} :
    isIdentifier s.toList = true ↔ s ∈ identifiers := by
  unfold identifiers
  rw [Set.mem_ofPred_eq]
  cases s.toList with
  | nil => simp [isIdentifier]
  | cons c cs => simp [isIdentifier, isInitial_iff, isSubsequent_iff]

structure Spells (parts : List String) (name : String) : Prop where
  ne_nil : parts ≠ []
  identifiers : ∀ p ∈ parts, p ∈ identifiers
  join : join parts = name

variable {name : String} {parts : List String}

theorem not_mem_of_mem_identifiers {s : String} (h : s ∈ identifiers) : '.' ∉ s.toList :=
  not_mem_of_isIdentifier (isIdentifier_iff_mem.mpr h)

/-- A dotted name is spelled by what it is split into, and by nothing else. -/
theorem spells_iff : Spells parts name ↔ isWellFormed name = true ∧ parts = split name := by
  constructor
  · intro h
    have hdot : ∀ p ∈ parts, '.' ∉ p.toList := fun p hp =>
      not_mem_of_mem_identifiers (h.identifiers p hp)
    constructor
    · rw [← h.join, isWellFormed_join_iff h.ne_nil]
      intro p hp
      exact (isIdentifier_iff.mp (isIdentifier_iff_mem.mpr (h.identifiers p hp))).1
    · rw [← h.join, split_join h.ne_nil hdot]
  · rintro ⟨h, rfl⟩
    refine ⟨split_ne_nil name, fun p hp => ?_, join_split name⟩
    exact isIdentifier_iff_mem.mp (isIdentifier_of_mem_split h hp)

theorem Spells.isWellFormed (h : Spells parts name) : isWellFormed name = true :=
  (spells_iff.mp h).1

/-! ### The last identifier -/

variable {owners : List String} {member : String}

theorem join_concat (h : owners ≠ []) (member : String) :
    join (owners ++ [member]) = join owners ++ "." ++ member := by
  rw [append_dot_append, join_join_cons h]

theorem Spells.not_mem_last (h : Spells (owners ++ [member]) name) : '.' ∉ member.toList :=
  not_mem_of_mem_identifiers (h.identifiers member (by simp))

theorem Spells.splitMember?_singleton (h : Spells [member] name) : splitMember? name = none := by
  have hname : name = member := by simpa [DottedName.join] using h.join.symm
  have hdot : '.' ∉ member.toList :=
    not_mem_of_mem_identifiers (h.identifiers member (List.mem_singleton_self _))
  rw [hname, splitMember?, cutAtLastDot_eq_none_iff.mpr hdot, Option.map_none]

theorem Spells.splitMember?_concat (h : Spells (owners ++ [member]) name) (ho : owners ≠ []) :
    splitMember? name = some (DottedName.join owners, member) := by
  rw [← h.join, join_concat ho]
  exact splitMember?_append_dot h.not_mem_last

theorem Spells.dropLast (h : Spells (owners ++ [member]) name) (ho : owners ≠ []) :
    Spells owners (DottedName.join owners) where
  ne_nil := ho
  identifiers p hp := h.identifiers p (List.mem_append_left _ hp)
  join := rfl

theorem Spells.last (h : Spells (owners ++ [member]) name) : Spells [member] member where
  ne_nil := List.cons_ne_nil _ _
  identifiers p hp := h.identifiers p (List.mem_append_right _ hp)
  join := by simp [DottedName.join]

theorem Spells.exists_concat (h : Spells parts name) :
    ∃ owners member, parts = owners ++ [member] :=
  (List.eq_nil_or_concat' parts).resolve_left h.ne_nil

theorem Spells.splitMember?_eq_none_iff (h : Spells parts name) :
    splitMember? name = none ↔ parts.length = 1 := by
  obtain ⟨owners, member, rfl⟩ := h.exists_concat
  by_cases ho : owners = []
  · subst ho
    simp [Spells.splitMember?_singleton h]
  · simp [h.splitMember?_concat ho, ho]

theorem Spells.exists_owner (h : Spells parts name) (hlen : parts.length ≠ 1) :
    ∃ owner member, splitMember? name = some (owner, member) ∧
      parts.getLast? = some member ∧ owner = DottedName.join parts.dropLast ∧
      DottedName.isWellFormed owner = true ∧ DottedName.isWellFormed member = true ∧
      owner ++ "." ++ member = name := by
  obtain ⟨owners, member, rfl⟩ := h.exists_concat
  have ho : owners ≠ [] := by
    rintro rfl
    exact hlen rfl
  refine ⟨DottedName.join owners, member, h.splitMember?_concat ho, by simp, by simp, ?_, ?_, ?_⟩
  · exact (h.dropLast ho).isWellFormed
  · exact h.last.isWellFormed
  · rw [← join_concat ho, h.join]

end ActionGrammar.DottedName
