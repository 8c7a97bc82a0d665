import ActionGrammar.Proofs.Grammar.Staging
import Mathlib.Data.List.Induction
import Mathlib.Data.List.Nodup

/-! # Rules by nonterminals

Staging rules groups them by their nonterminals. The rules of all groups, taken
in order, are a declaration with the same groups, and staging it instead of the
one that it comes from leads to the same builder.
-/

namespace ActionGrammar

variable {τ : Type}

namespace Builder

variable {name : String} {rule : StagedRule} {nonTerminals front : List (String × List StagedRule)}

@[simp] theorem withRule_nil : withRule [] name rule = [(name, [rule])] := rfl

theorem withRule_cons (entry : String × List StagedRule) :
    withRule (entry :: nonTerminals) name rule =
      if entry.1 = name then (entry.1, entry.2 ++ [rule]) :: nonTerminals
      else entry :: withRule nonTerminals name rule := by
  rw [withRule, List.findIdx?_cons]
  by_cases h : entry.1 = name
  · simp [h]
  · simp only [beq_iff_eq, h, if_false]
    rw [withRule]
    cases nonTerminals.findIdx? (·.1 == name) <;> simp

theorem withRule_append (h : name ∉ front.map Prod.fst)
    (nonTerminals : List (String × List StagedRule)) :
    withRule (front ++ nonTerminals) name rule = front ++ withRule nonTerminals name rule := by
  induction front with
  | nil => rfl
  | cons entry front ih =>
    simp only [List.map_cons, List.mem_cons, not_or] at h
    rw [List.cons_append, withRule_cons, if_neg (Ne.symm h.1), ih h.2, List.cons_append]

theorem map_fst_withRule :
    (withRule nonTerminals name rule).map Prod.fst =
      if name ∈ nonTerminals.map Prod.fst then nonTerminals.map Prod.fst
      else nonTerminals.map Prod.fst ++ [name] := by
  induction nonTerminals with
  | nil => rfl
  | cons entry nonTerminals ih =>
    rw [withRule_cons]
    by_cases h : entry.1 = name
    · simp [h]
    · rw [if_neg h, List.map_cons, ih]
      have hmem : name ∈ (entry :: nonTerminals).map Prod.fst ↔
          name ∈ nonTerminals.map Prod.fst := by simp [Ne.symm h]
      simp only [hmem]
      split <;> rfl

theorem withRule_map_of_mem {names : List String} {rules : String → List StagedRule}
    (hnodup : names.Nodup) (h : name ∈ names) :
    withRule (names.map fun n => (n, rules n)) name rule =
      names.map fun n => (n, if n = name then rules n ++ [rule] else rules n) := by
  induction names with
  | nil => exact nomatch h
  | cons n names ih =>
    obtain ⟨hn, hnodup⟩ := List.nodup_cons.mp hnodup
    rw [List.map_cons, withRule_cons, List.map_cons]
    by_cases hname : n = name
    · subst hname
      rw [if_pos rfl, if_pos rfl]
      refine congrArg _ (List.map_congr_left fun m hm => ?_)
      rw [if_neg]
      rintro rfl
      exact hn hm
    · rw [if_neg hname, if_neg hname, ih hnodup ((List.mem_cons.mp h).resolve_left (Ne.symm hname))]

theorem withRule_map {names : List String} {rules : String → List StagedRule}
    (hnodup : names.Nodup) (hnew : name ∉ names → rules name = []) :
    withRule (names.map fun n => (n, rules n)) name rule =
      (if name ∈ names then names else names ++ [name]).map fun n =>
        (n, if n = name then rules n ++ [rule] else rules n) := by
  by_cases h : name ∈ names
  · rw [if_pos h, withRule_map_of_mem hnodup h]
  · have hold : ∀ n ∈ names, n ≠ name := fun n hn heq => h (heq ▸ hn)
    rw [if_neg h, ← List.append_nil (List.map _ _), withRule_append (by simpa using h),
      withRule_nil, List.map_append, List.map_singleton, if_pos rfl, hnew h]
    refine congrArg (· ++ _) (List.map_congr_left fun n hn => ?_)
    rw [if_neg (hold n hn)]

end Builder

namespace GrammarDecl

open Builder

structure IsGrouped (nonTerminals : List (String × List StagedRule)) : Prop where
  nodup : (nonTerminals.map Prod.fst).Nodup
  rules : ∀ entry ∈ nonTerminals, entry.2 ≠ []

def groupRules (entry : String × List StagedRule) : List RuleDecl :=
  entry.2.map fun r => ⟨entry.1, r.symbols, r.action⟩

def ungrouped (nonTerminals : List (String × List StagedRule)) : List RuleDecl :=
  nonTerminals.flatMap groupRules

variable {nonTerminals : List (String × List StagedRule)} {rs : List RuleDecl} {r : RuleDecl}

theorem IsGrouped.withRule (h : IsGrouped nonTerminals) (name : String) (rule : StagedRule) :
    IsGrouped (withRule nonTerminals name rule) := by
  refine ⟨?_, ?_⟩
  · rw [map_fst_withRule]
    split
    · exact h.nodup
    · rename_i hname
      rw [← List.concat_eq_append]
      exact h.nodup.concat hname
  · have hrules := h.rules
    clear h
    induction nonTerminals with
    | nil => simp
    | cons entry nonTerminals ih =>
      obtain ⟨he, hrules⟩ := List.forall_mem_cons.mp hrules
      rw [withRule_cons]
      split
      · exact List.forall_mem_cons.mpr ⟨by simp, hrules⟩
      · exact List.forall_mem_cons.mpr ⟨he, ih hrules⟩

theorem mem_ungrouped_withRule {name : String} {rule : StagedRule} :
    r ∈ ungrouped (withRule nonTerminals name rule) ↔
      r ∈ ungrouped nonTerminals ∨ r = ⟨name, rule.symbols, rule.action⟩ := by
  induction nonTerminals with
  | nil => simp [ungrouped, groupRules]
  | cons entry nonTerminals ih =>
    rw [withRule_cons]
    split
    · rename_i h
      subst h
      simp only [ungrouped, groupRules, List.flatMap_cons, List.map_append, List.mem_append,
        List.map_cons, List.map_nil, List.mem_singleton]
      tauto
    · simp only [ungrouped, List.flatMap_cons, List.mem_append] at ih ⊢
      rw [ih, or_assoc]

theorem grouped_concat (rs : List RuleDecl) (r : RuleDecl) :
    grouped (rs ++ [r]) = withRule (grouped rs) r.nonTerminal ⟨r.symbols, r.action⟩ := by
  simp [grouped]

theorem isGrouped_grouped (rs : List RuleDecl) : IsGrouped (grouped rs) := by
  induction rs using List.reverseRecOn with
  | nil => exact ⟨List.nodup_nil, by simp [grouped]⟩
  | append_singleton rs r ih =>
    rw [grouped_concat]
    exact ih.withRule _ _

theorem mem_ungrouped_grouped : r ∈ ungrouped (grouped rs) ↔ r ∈ rs := by
  induction rs using List.reverseRecOn with
  | nil => simp [grouped, ungrouped]
  | append_singleton rs r' ih =>
    rw [grouped_concat, mem_ungrouped_withRule, ih, List.mem_append, List.mem_singleton]

theorem eraseDups_concat (names : List String) (name : String) :
    (names ++ [name]).eraseDups =
      if name ∈ names then names.eraseDups else names.eraseDups ++ [name] := by
  rw [List.eraseDups_append]
  split <;> simp [List.removeAll, List.eraseDups_cons, *]

theorem nodup_eraseDups (names : List String) : names.eraseDups.Nodup := by
  induction names using List.reverseRecOn with
  | nil => exact List.nodup_nil
  | append_singleton names name ih =>
    rw [eraseDups_concat]
    split
    · exact ih
    · rename_i h
      rw [← List.concat_eq_append]
      exact ih.concat fun hmem => h (List.mem_eraseDups.mp hmem)

def stagedFor (rs : List RuleDecl) (name : String) : List StagedRule :=
  (rs.filter (·.nonTerminal == name)).map fun r => ⟨r.symbols, r.action⟩

theorem stagedFor_concat (rs : List RuleDecl) (r : RuleDecl) (name : String) :
    stagedFor (rs ++ [r]) name =
      if name = r.nonTerminal then stagedFor rs name ++ [⟨r.symbols, r.action⟩]
      else stagedFor rs name := by
  split
  · rename_i h
    simp [stagedFor, h]
  · rename_i h
    simp [stagedFor, Ne.symm h]

/-- The nonterminals come in the order of their first rules, each with all of its rules. -/
theorem grouped_eq_map (rs : List RuleDecl) :
    grouped rs = (rs.map RuleDecl.nonTerminal).eraseDups.map fun n => (n, stagedFor rs n) := by
  induction rs using List.reverseRecOn with
  | nil => rfl
  | append_singleton rs r ih =>
    have hnew : r.nonTerminal ∉ (rs.map RuleDecl.nonTerminal).eraseDups →
        stagedFor rs r.nonTerminal = [] := by
      simp [stagedFor, List.filter_eq_nil_iff]
    rw [grouped_concat, ih, withRule_map (nodup_eraseDups _) hnew, List.map_append,
      List.map_singleton, eraseDups_concat]
    simp only [stagedFor_concat, List.mem_eraseDups]

theorem grouped_cons (r : RuleDecl) (rs : List RuleDecl) :
    ∃ rules rest, grouped (r :: rs) = (r.nonTerminal, rules) :: rest := by
  induction rs using List.reverseRecOn with
  | nil => exact ⟨_, _, rfl⟩
  | append_singleton rs r' ih =>
    obtain ⟨rules, rest, h⟩ := ih
    rw [← List.cons_append, grouped_concat, h, withRule_cons]
    split <;> exact ⟨_, _, rfl⟩

theorem foldl_withRule {front : List (String × List StagedRule)} {name : String}
    (h : name ∉ front.map Prod.fst) (rules more : List StagedRule) :
    (groupRules (name, more)).foldl (fun nonTerminals r =>
        Builder.withRule nonTerminals r.nonTerminal ⟨r.symbols, r.action⟩)
      (front ++ [(name, rules)]) = front ++ [(name, rules ++ more)] := by
  unfold groupRules
  induction more generalizing rules with
  | nil => simp
  | cons rule more ih =>
    have hstep : Builder.withRule (front ++ [(name, rules)]) name rule =
        front ++ [(name, rules ++ [rule])] := by
      rw [withRule_append h, withRule_cons, if_pos rfl]
    rw [List.map_cons, List.foldl_cons, hstep, ih]
    simp

theorem grouped_ungrouped (h : IsGrouped nonTerminals) :
    grouped (ungrouped nonTerminals) = nonTerminals := by
  induction nonTerminals using List.reverseRecOn with
  | nil => rfl
  | append_singleton front entry ih =>
    obtain ⟨name, rules⟩ := entry
    obtain ⟨hfront, hentry⟩ := List.forall_mem_append.mp h.rules
    have hnodup : (front.map Prod.fst ++ [name]).Nodup := by simpa using h.nodup
    obtain ⟨hnodup, -, hdisjoint⟩ := List.nodup_append.mp hnodup
    have hname : name ∉ front.map Prod.fst := fun hmem =>
      hdisjoint name hmem name List.mem_cons_self rfl
    have hgroups : grouped (ungrouped front) = front := ih ⟨hnodup, hfront⟩
    obtain ⟨rule, rules, rfl⟩ :=
      List.exists_cons_of_ne_nil (hentry (name, rules) List.mem_cons_self)
    have hfirst : Builder.withRule front name rule = front ++ [(name, [rule])] := by
      simpa using withRule_append hname []
    unfold grouped at hgroups ⊢
    rw [ungrouped, List.flatMap_append, List.foldl_append, ← ungrouped, hgroups,
      List.flatMap_singleton, groupRules, List.map_cons, List.foldl_cons, hfirst]
    exact foldl_withRule hname [rule] rules

/-- The declaration with its rules in the order of their groups. -/
def regrouped (d : GrammarDecl) : GrammarDecl := ⟨ungrouped (grouped d.rules), d.start⟩

/-- A declaration that is staged leads to the same builder when it is regrouped. -/
theorem stage_regrouped {d : GrammarDecl} {b b' : Builder τ} {u : Unit}
    (hb : b.nonTerminals = []) (h : d.stage.runFrom b = (.ok u, b')) :
    d.regrouped.stage.runFrom b = (.ok u, b') := by
  obtain ⟨_, b₁, hrules, hstart⟩ := Attempt.runFrom_bind_eq_ok_iff.mp h
  have hreq := stageRules_requires hrules
  have hreq' : ∀ r ∈ d.regrouped.rules, r.symbols.isEmpty = false ∧ r.action.isEmpty = false ∧
      b.hasTerminal r.nonTerminal = false := fun r hr => hreq r (mem_ungrouped_grouped.mp hr)
  have hgroups : grouped d.regrouped.rules = grouped d.rules :=
    grouped_ungrouped (isGrouped_grouped d.rules)
  rw [stageRules_eq_ok hb hreq] at hrules
  have hrules' := stageRules_eq_ok hb hreq'
  rw [hgroups, hrules] at hrules'
  exact Attempt.runFrom_bind_eq_ok_iff.mpr ⟨_, _, hrules', hstart⟩

theorem eq_of_stage {d : GrammarDecl} {b b' : Builder τ} {u : Unit} {name : String}
    (hb : b.nonTerminals = []) (hd : d.start = some name)
    (h : d.stage.runFrom b = (.ok u, b')) :
    b' = { b with nonTerminals := grouped d.rules, start := some name } := by
  obtain ⟨_, b₁, hrules, hstart⟩ := Attempt.runFrom_bind_eq_ok_iff.mp h
  rw [stageRules_eq_ok hb (stageRules_requires hrules)] at hrules
  cases hrules
  rw [hd] at hstart
  exact eq_of_setStart hstart

end GrammarDecl

end ActionGrammar
