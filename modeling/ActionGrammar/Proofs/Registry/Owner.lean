import ActionGrammar.Proofs.Registry.Lookup
import ActionGrammar.Proofs.Text.Identifier

/-! # Owners of methods

The owner of a method is what stands in front of the last dot of its name. Where the name is a
dotted name, so is the owner's, so a registry reports as malformed only what it was asked for.
-/

namespace ActionGrammar

namespace Registry

variable {π : Type} {r : Registry π} {name n : String}

theorem findType_eq_invalidName_iff :
    r.findType name = .error (.invalidName n) ↔
      DottedName.isWellFormed name = false ∧ n = name := by
  unfold findType
  split
  · rename_i hname
    dsimp only
    split <;> simp [hname]
  · rename_i hname
    simp [hname, eq_comm]

theorem findMethodGroup_eq_invalidName_iff :
    r.findMethodGroup name = .error (.invalidName n) ↔
      DottedName.isWellFormed name = false ∧ n = name := by
  by_cases hname : DottedName.isWellFormed name = true
  · cases hsplit : DottedName.splitMember? name with
    | none => simp [findMethodGroup, hname, hsplit]
    | some parts =>
      obtain ⟨owner, member⟩ := parts
      have howner : DottedName.isWellFormed owner = true := by
        rw [DottedName.append_of_splitMember? hsplit] at hname
        exact (DottedName.isWellFormed_append_dot_iff.mp hname).1
      rw [findMethodGroup_of_splitMember? hname hsplit, bind_eq_error_iff,
        findType_eq_invalidName_iff, howner, hname]
      simp only [Bool.true_eq_false, false_and, false_or, iff_false]
      rintro ⟨d, -, h⟩
      cases hg : d.method? member <;> simp [hg] at h
  · simp [findMethodGroup, hname, eq_comm]

end Registry

namespace DottedName

/-- The dotted names are the joins of identifiers, each of one list of them. The member is the last
identifier, and the owner the join of the others, if there are any. A registry that looks for a
method reports no other name as malformed than the one it was asked for. -/
theorem splits_at_last_identifier (name : String) :
    (isWellFormed name = true ↔ ∃ parts, Spells parts name) ∧
    (∀ parts parts', Spells parts name → Spells parts' name → parts = parts') ∧
    (∀ parts, Spells parts name →
      (splitMember? name = none ↔ parts.length = 1) ∧
      (parts.length ≠ 1 → ∃ owner member, splitMember? name = some (owner, member) ∧
        parts.getLast? = some member ∧ owner = join parts.dropLast ∧
        isWellFormed owner = true ∧ isWellFormed member = true ∧
        owner ++ "." ++ member = name)) ∧
    ∀ {π : Type} (r : Registry π) (n : String),
      r.findMethodGroup name = .error (.invalidName n) ↔ isWellFormed name = false ∧ n = name := by
  constructor
  · constructor
    · intro h
      exact ⟨split name, spells_iff.mpr ⟨h, rfl⟩⟩
    · rintro ⟨parts, h⟩
      exact h.isWellFormed
  constructor
  · intro parts parts' h h'
    exact (spells_iff.mp h).2.trans (spells_iff.mp h').2.symm
  constructor
  · intro parts h
    exact ⟨h.splitMember?_eq_none_iff, h.exists_owner⟩
  · intro π r n
    exact Registry.findMethodGroup_eq_invalidName_iff

theorem spells_fold : Spells ["Arith", "Tail", "fold"] "Arith.Tail.fold" where
  ne_nil := List.cons_ne_nil _ _
  identifiers p hp := by
    apply isIdentifier_iff_mem.mp
    simp only [List.mem_cons, List.not_mem_nil, or_false] at hp
    rcases hp with rfl | rfl | rfl <;> decide
  join := by decide

/-- The owner of a method of a nested type is a dotted name, and it is not reported. -/
theorem splits_at_last_identifier_fold :
    isWellFormed "Arith.Tail.fold" = true ∧
    splitMember? "Arith.Tail.fold" = some ("Arith.Tail", "fold") ∧
    isWellFormed "Arith.Tail" = true ∧
    (⟨[]⟩ : Registry Unit).findMethodGroup "Arith.Tail.fold" ≠
      .error (.invalidName "Arith.Tail") := by
  obtain ⟨hspelled, -, hsplits, hreports⟩ := splits_at_last_identifier "Arith.Tail.fold"
  have hname := hspelled.mpr ⟨_, spells_fold⟩
  obtain ⟨owner, member, hsplit, hmember, howner, hw, -, -⟩ := (hsplits _ spells_fold).2 (by decide)
  obtain rfl : "fold" = member := Option.some.inj hmember
  obtain rfl : owner = "Arith.Tail" := howner.trans (by decide)
  refine ⟨hname, hsplit, hw, fun h => ?_⟩
  exact absurd ((hreports _ _).mp h).1 (by simp [hname])

end DottedName

end ActionGrammar
