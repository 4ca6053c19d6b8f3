import Mathlib.Data.List.Induction
import Typestate.Proofs.States.Threads

/-!
# How rules are grouped

Rules with the same targets are in one group, and all of them look at the same class. Each rule of
which the expression has a class is in the group of its targets, and there are no other rules.
-/
namespace Typestate

namespace NodeStates

variable {v : NodeStates} {c d : EquivClass} {e e' : Expr} {m m' : PossibleMatch}

theorem mem_of_classOf (h : v.classOf e = some c) :
    e.simplify ∈ c ∧ ∃ s, v.map.get? c = some s := by
  rw [classOf_eq_find?] at h
  refine ⟨by simpa using List.find?_some h, ?_⟩
  exact SortedMap.mem_keys_iff.1 (List.mem_of_find?_eq_some h)

theorem classOf_congr (h : e.simplify = e'.simplify) : v.classOf e = v.classOf e' := by
  rw [classOf_eq_find?, classOf_eq_find?, h]

@[simp] theorem statesOf_simplify : v.statesOf e.simplify = v.statesOf e := by
  rw [statesOf_eq_bind, statesOf_eq_bind,
    classOf_congr (Expr.simplify_of_isCanonical (Expr.isCanonical_simplify e))]

/-- The groups of a list of rules: the rules of a group have its class and its targets, and each
rule whose expression has a class is in a group. -/
structure Sorts (v : NodeStates) (l : List PossibleMatch)
    (groups : SortedMap EquivClass RuleGroup) : Prop where
  nonempty : ∀ {x g}, groups.get? x = some g → ∃ m, m ∈ g.rules
  sound : ∀ {x g m}, groups.get? x = some g → m ∈ g.rules →
    m ∈ l ∧ v.classOf m.expr = some g.cls ∧ targets g.cls m = x
  complete : ∀ {m c}, m ∈ l → v.classOf m.expr = some c →
    ∃ g, groups.get? (targets c m) = some g ∧ m ∈ g.rules

theorem cls_eq_of_targets (hc : v.classOf m.expr = some c) (hd : v.classOf m'.expr = some d)
    (h : targets c m = targets d m') : c = d := by
  have hsame : m.expr.simplify = m'.expr.simplify → c = d := fun he =>
    Option.some.inj (hc.symm.trans ((classOf_congr he).trans hd))
  unfold targets at h
  split at h <;> split at h
  · have hmem : m.expr.simplify ∈ SortedSet.singleton m'.expr.simplify :=
      h ▸ SortedSet.mem_singleton.2 rfl
    exact hsame (SortedSet.mem_singleton.1 hmem)
  · exact hsame (SortedSet.mem_singleton.1 (h ▸ (mem_of_classOf hd).1)).symm
  · exact hsame (SortedSet.mem_singleton.1 (h ▸ (mem_of_classOf hc).1))
  · exact h

theorem expr_mem_targets (hc : v.classOf m.expr = some c) : m.expr.simplify ∈ targets c m := by
  unfold targets
  split
  · exact SortedSet.mem_singleton.2 rfl
  · exact (mem_of_classOf hc).1

theorem mem_of_mem_targets (hc : v.classOf m.expr = some c) (he : e ∈ targets c m) : e ∈ c := by
  unfold targets at he
  split at he
  · exact SortedSet.mem_singleton.1 he ▸ (mem_of_classOf hc).1
  · exact he

theorem Sorts.addRule {l : List PossibleMatch} {groups : SortedMap EquivClass RuleGroup}
    (h : v.Sorts l groups) (m : PossibleMatch) : v.Sorts (l ++ [m]) (v.addRule groups m) := by
  unfold NodeStates.addRule
  cases hc : v.classOf m.expr with
  | none =>
    refine ⟨h.nonempty, fun hx hm' => ?_, fun {m' c} hm' hc' => ?_⟩
    · obtain ⟨hl, hrest⟩ := h.sound hx hm'
      exact ⟨by simp [hl], hrest⟩
    · rcases List.mem_append.1 hm' with hm' | hm'
      · exact h.complete hm' hc'
      · rw [List.mem_singleton.1 hm', hc] at hc'
        cases hc'
  | some c =>
    dsimp only
    have hcls : ∀ g, groups.get? (targets c m) = some g → g.cls = c := by
      intro g hg
      obtain ⟨m₀, hm₀⟩ := h.nonempty hg
      obtain ⟨-, hc₀, hx₀⟩ := h.sound hg hm₀
      exact cls_eq_of_targets hc₀ hc hx₀
    have hold : ((groups.get? (targets c m)).getD ⟨c, []⟩).cls = c := by
      cases hg : groups.get? (targets c m) with
      | none => rfl
      | some g => exact hcls g hg
    refine ⟨fun {x g} hx => ?_, fun {x g m'} hx hm' => ?_, fun {m' c'} hm' hc' => ?_⟩
    · rw [SortedMap.get?_insert] at hx
      split at hx
      · exact ⟨m, by simp [← Option.some.inj hx]⟩
      · exact h.nonempty hx
    · rw [SortedMap.get?_insert] at hx
      split at hx
      · rename_i heq
        obtain rfl := Option.some.inj hx
        rcases List.mem_append.1 hm' with hm' | hm'
        · cases hg : groups.get? (targets c m) with
          | none => simp [hg] at hm'
          | some g =>
            rw [hg, Option.getD_some] at hm'
            obtain ⟨hl, hc', hx'⟩ := h.sound hg hm'
            exact ⟨by simp [hl], by simpa using hc', by simpa [heq] using hx'⟩
        · rw [List.mem_singleton.1 hm']
          exact ⟨by simp, by simp [hold, hc], by simp [hold, heq]⟩
      · obtain ⟨hl, hrest⟩ := h.sound hx hm'
        exact ⟨by simp [hl], hrest⟩
    · rw [SortedMap.get?_insert]
      rcases List.mem_append.1 hm' with hm' | hm'
      · obtain ⟨g, hg, hmg⟩ := h.complete hm' hc'
        split
        · rename_i heq
          refine ⟨_, rfl, List.mem_append.2 (.inl ?_)⟩
          rw [← heq, hg]
          exact hmg
        · exact ⟨g, hg, hmg⟩
      · obtain rfl := List.mem_singleton.1 hm'
        obtain rfl : c = c' := Option.some.inj (hc.symm.trans hc')
        exact ⟨_, if_pos rfl, by simp⟩

theorem sorts_groupRules (v : NodeStates) (l : List PossibleMatch) :
    v.Sorts l (v.groupRules l) := by
  induction l using List.reverseRecOn with
  | nil => exact ⟨nofun, nofun, nofun⟩
  | append_singleton l m ih =>
    rw [groupRules, List.foldl_append]
    exact ih.addRule m

/-- A group stems from a rule of which the expression is in the class, and so is each target. -/
theorem exists_rule_of_mem_groupRules {l : List PossibleMatch} {x : EquivClass × RuleGroup}
    (hx : x ∈ (v.groupRules l).entries) : ∃ m ∈ l, v.classOf m.expr = some x.2.cls ∧
      m.expr.simplify ∈ x.1 ∧ ∀ e ∈ x.1, e ∈ x.2.cls := by
  have hsorts := v.sorts_groupRules l
  have hx := SortedMap.mem_entries_iff.1 hx
  obtain ⟨m, hm⟩ := hsorts.nonempty hx
  obtain ⟨hl, hc, htargets⟩ := hsorts.sound hx hm
  rw [← htargets]
  exact ⟨m, hl, hc, expr_mem_targets hc, fun _ he => mem_of_mem_targets hc he⟩

end NodeStates

end Typestate
