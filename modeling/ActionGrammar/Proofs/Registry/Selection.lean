import Mathlib.Data.List.Perm.Basic
import ActionGrammar.Registry.Overload

/-! # Selection of overloads

An overload is selected if it alone accepts the kinds of the arguments, or if
among those that do it alone is declared with these kinds. What is selected, and
why nothing is, depends on the overloads that accept the kinds, but not on their
order.
-/

namespace ActionGrammar

variable {π : Type}

namespace Overload

variable {o : Overload π} {kinds : List ValueKind}

theorem isExact_iff : o.isExact kinds = true ↔ o.params = kinds := by
  rw [isExact, beq_iff_eq]

theorem accepts_iff :
    o.accepts kinds = true ↔ List.Forall₂ (fun k k' => k.accepts k' = true) o.params kinds := by
  simp [accepts, List.forall₂_iff_zip]

theorem isStatic_eq_true_iff : o.isStatic = true ↔ ∃ run, o.body = .static run := by
  unfold isStatic
  cases o.body <;> simp

theorem isStatic_eq_false_iff : o.isStatic = false ↔ ∃ run, o.body = .method run := by
  unfold isStatic
  cases o.body <;> simp

end Overload

namespace MethodGroup

/-- What comes of a call of this name with these kinds of arguments, if these overloads accept
them. -/
structure IsPicked (name : String) (kinds : List ValueKind) (accepting : List (Overload π))
    (outcome : Except ResolveError (Overload π)) : Prop where
  ok_iff : ∀ o, outcome = .ok o ↔
    accepting = [o] ∨ accepting.filter (·.params = kinds) = [o]
  noMatching_iff : outcome = .error (.noMatchingOverload name kinds) ↔ accepting = []
  ambiguous_iff :
    outcome = .error (.ambiguousOverload name (some kinds) accepting.length) ↔
      2 ≤ accepting.length ∧ (accepting.filter (·.params = kinds)).length ≠ 1

variable {g g' : MethodGroup π} {name : String} {kinds : List ValueKind} {isStatic : Bool}
  {os os' : List (Overload π)} {x y : Except ResolveError (Overload π)}

theorem isPicked_pick (g : MethodGroup π) (os : List (Overload π)) (kinds : List ValueKind) :
    IsPicked g.name kinds (os.filter (·.accepts kinds)) (g.pick os kinds) := by
  have hexact : (fun o : Overload π => o.isExact kinds) = fun o => decide (o.params = kinds) :=
    funext fun o => by rw [Bool.eq_iff_iff, Overload.isExact_iff, decide_eq_true_iff]
  simp only [pick, hexact]
  generalize os.filter (·.accepts kinds) = accepting
  rcases accepting with _ | ⟨a, _ | ⟨b, rest⟩⟩
  · constructor <;> simp
  · by_cases ha : a.params = kinds
    · constructor <;> simp [ha]
    · constructor <;> simp [ha]
  · dsimp only
    rcases hfilter : (a :: b :: rest).filter (·.params = kinds) with _ | ⟨o, _ | ⟨o', rest'⟩⟩
    · constructor <;> simp [hfilter]
    · constructor <;> simp [hfilter]
    · constructor <;> simp [hfilter]

theorem IsPicked.cases (h : IsPicked name kinds os x) :
    (os = [] ∧ x = .error (.noMatchingOverload name kinds)) ∨
    (∃ o, (os = [o] ∨ os.filter (·.params = kinds) = [o]) ∧ x = .ok o) ∨
    (2 ≤ os.length ∧ (os.filter (·.params = kinds)).length ≠ 1) ∧
      x = .error (.ambiguousOverload name (some kinds) os.length) := by
  by_cases hnone : os = []
  · exact .inl ⟨hnone, h.noMatching_iff.mpr hnone⟩
  right
  by_cases hone : ∃ o, os = [o] ∨ os.filter (·.params = kinds) = [o]
  · obtain ⟨o, ho⟩ := hone
    exact .inl ⟨o, ho, (h.ok_iff o).mpr ho⟩
  right
  have hlen : os.length ≠ 1 := by
    intro hlen
    obtain ⟨o, ho⟩ := List.length_eq_one_iff.mp hlen
    exact hone ⟨o, .inl ho⟩
  have hexact : (os.filter (·.params = kinds)).length ≠ 1 := by
    intro hlen
    obtain ⟨o, ho⟩ := List.length_eq_one_iff.mp hlen
    exact hone ⟨o, .inr ho⟩
  have hpos := List.length_pos_of_ne_nil hnone
  have hseveral : 2 ≤ os.length := by omega
  exact ⟨⟨hseveral, hexact⟩, h.ambiguous_iff.mpr ⟨hseveral, hexact⟩⟩

theorem IsPicked.unique (h : IsPicked name kinds os x) (h' : IsPicked name kinds os y) : x = y := by
  rcases h.cases with ⟨hnone, rfl⟩ | ⟨o, ho, rfl⟩ | ⟨hseveral, rfl⟩
  · exact (h'.noMatching_iff.mpr hnone).symm
  · exact ((h'.ok_iff o).mpr ho).symm
  · exact (h'.ambiguous_iff.mpr hseveral).symm

theorem IsPicked.mem {o : Overload π} (h : IsPicked name kinds os x) (hx : x = .ok o) : o ∈ os := by
  rcases (h.ok_iff o).mp hx with ho | ho
  · rw [ho]
    exact List.mem_singleton_self o
  · exact List.mem_of_mem_filter (ho ▸ List.mem_singleton_self o)

theorem IsPicked.perm (h : IsPicked name kinds os x) (hp : os.Perm os') :
    IsPicked name kinds os' x := by
  have hexact := hp.filter (·.params = kinds)
  constructor
  · intro o
    rw [h.ok_iff, ← List.perm_singleton, ← List.perm_singleton, hp.congr_left, hexact.congr_left,
      List.perm_singleton, List.perm_singleton]
  · rw [h.noMatching_iff, ← List.perm_nil, hp.congr_left, List.perm_nil]
  · rw [← hp.length_eq, ← hexact.length_eq]
    exact h.ambiguous_iff

/-- The second list has the overloads of the first one in some order. Either one may have others,
which all have the property. -/
def AgreeBut (P : Overload π → Prop) (os os' : List (Overload π)) : Prop :=
  ∃ common others others', os.Perm (common ++ others) ∧ os'.Perm (common ++ others') ∧
    ∀ o ∈ others ++ others', P o

theorem AgreeBut.perm_filter {p : Overload π → Bool} (h : AgreeBut (p · = false) os os') :
    (os.filter p).Perm (os'.filter p) := by
  obtain ⟨common, others, others', hos, hos', hothers⟩ := h
  obtain ⟨hleft, hright⟩ := List.forall_mem_append.mp hothers
  have hnil : ∀ {l : List (Overload π)}, (∀ o ∈ l, p o = false) → l.filter p = [] := by
    intro l hl
    exact List.filter_eq_nil_iff.mpr fun o ho => by simp [hl o ho]
  have heq : (common ++ others).filter p = (common ++ others').filter p := by
    rw [List.filter_append, List.filter_append, hnil hleft, hnil hright]
  exact (hos.filter p).trans (heq ▸ (hos'.filter p).symm)

/-- A call of one name comes to the same if the overloads that accept the kinds are the same. -/
theorem pick_eq_of_perm (hname : g'.name = g.name)
    (hp : (os.filter (·.accepts kinds)).Perm (os'.filter (·.accepts kinds))) :
    g'.pick os' kinds = g.pick os kinds := by
  have h := isPicked_pick g' os' kinds
  rw [hname] at h
  exact h.unique ((isPicked_pick g os kinds).perm hp)

theorem select_eq_ok {o : Overload π} (h : g.select isStatic kinds = .ok o) :
    o ∈ g.overloads ∧ o.isStatic = isStatic ∧ o.accepts kinds = true := by
  obtain ⟨hform, haccepts⟩ := List.mem_filter.mp ((isPicked_pick g _ kinds).mem h)
  obtain ⟨ho, hstatic⟩ := List.mem_filter.mp hform
  exact ⟨ho, eq_of_beq hstatic, haccepts⟩

/-- An overload is selected if it alone accepts the kinds, or if among those that do it alone is
declared with these kinds. Otherwise the call is refused, and it is ambiguous if several accept
them. Neither the order of the overloads nor those that do not accept the kinds or are of the other
form make a difference. -/
theorem selects_by_acceptance (g : MethodGroup π) (kinds : List ValueKind) :
    IsPicked g.name kinds (g.overloads.filter (·.accepts kinds)) (g.selectAny kinds) ∧
    (∀ isStatic, IsPicked g.name kinds
      ((g.overloads.filter (·.isStatic == isStatic)).filter (·.accepts kinds))
      (g.select isStatic kinds)) ∧
    ∀ g' : MethodGroup π, g'.name = g.name →
      (AgreeBut (·.accepts kinds = false) g.overloads g'.overloads →
        g'.selectAny kinds = g.selectAny kinds) ∧
      ∀ isStatic,
        AgreeBut (fun o => o.accepts kinds = false ∨ o.isStatic ≠ isStatic) g.overloads
          g'.overloads →
        g'.select isStatic kinds = g.select isStatic kinds := by
  refine ⟨isPicked_pick g _ kinds, fun isStatic => isPicked_pick g _ kinds, fun g' hname => ?_⟩
  constructor
  · intro h
    exact pick_eq_of_perm hname h.perm_filter
  · intro isStatic h
    apply pick_eq_of_perm hname
    rw [List.filter_filter, List.filter_filter]
    refine AgreeBut.perm_filter ?_
    obtain ⟨common, others, others', hos, hos', hothers⟩ := h
    refine ⟨common, others, others', hos, hos', fun o ho => ?_⟩
    rcases hothers o ho with hkinds | hform
    · simp [hkinds]
    · simp [hform]

/-- Both static overloads accept two integers, and neither is declared with them. -/
def mixGroup : MethodGroup Unit where
  name := "mix"
  receiver := none
  overloads := [⟨[.any, .int], .static fun _ => pure .null⟩,
    ⟨[.int, .any], .static fun _ => pure .null⟩]

def mixMethod : Overload Unit := ⟨[.int, .int], .method fun this _ => pure this⟩

/-- The call is ambiguous, also in the other order and next to the method. -/
theorem selects_by_acceptance_mix :
    select ⟨"mix", none, mixMethod :: mixGroup.overloads.reverse⟩ true [.int, .int] =
      .error (.ambiguousOverload "mix" (some [.int, .int]) 2) := by
  obtain ⟨-, hselect, hregardless⟩ := selects_by_acceptance mixGroup [.int, .int]
  have hagree : AgreeBut (fun o => o.accepts [.int, .int] = false ∨ o.isStatic ≠ true)
      mixGroup.overloads (mixMethod :: mixGroup.overloads.reverse) := by
    refine ⟨mixGroup.overloads, [], [mixMethod], by simp, ?_, ?_⟩
    · exact ((List.reverse_perm _).cons _).trans (List.perm_append_singleton _ _).symm
    · exact List.forall_mem_singleton.mpr (.inr (by decide))
  obtain ⟨-, hsame⟩ := hregardless ⟨"mix", none, mixMethod :: mixGroup.overloads.reverse⟩ rfl
  rw [hsame true hagree]
  exact (hselect true).ambiguous_iff.mpr ⟨by decide, by decide⟩

end MethodGroup

end ActionGrammar
