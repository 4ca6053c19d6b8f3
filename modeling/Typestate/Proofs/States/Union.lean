import Typestate.Proofs.States.Incidents

/-!
# Unions of values

The union of two values has the states of both, class by class. If both have the same classes and
no class is without states, then to take a union apart into expressions, to hand states over, to
fire rules and to gather states again makes of it the union of what it makes of both. Each of
these steps treats state by state what it finds, and what it looks for is there on both sides or
on none.
-/
namespace Typestate

/-- A set is the union of two sets that are not empty. -/
structure SortedSet.IsUnion {α : Type} [Ord α] (s s₁ s₂ : SortedSet α) : Prop where
  mem : ∀ t, t ∈ s ↔ t ∈ s₁ ∨ t ∈ s₂
  left : ∃ t, t ∈ s₁
  right : ∃ t, t ∈ s₂

theorem SortedSet.isUnion_self {α : Type} [Ord α] {s : SortedSet α} (h : ∃ t, t ∈ s) :
    s.IsUnion s s :=
  ⟨fun _ => (or_self_iff).symm, h, h⟩

/-- Of three things that may be missing none is there, or all are there and are related. -/
inductive Together {α : Type} (R : α → α → α → Prop) : Option α → Option α → Option α → Prop
  | none : Together R none none none
  | some {a b c} : R a b c → Together R (some a) (some b) (some c)

theorem Together.imp {α : Type} {R S : α → α → α → Prop} {a b c : Option α} (h : Together R a b c)
    (hRS : ∀ a b c, R a b c → S a b c) : Together S a b c := by
  cases h with
  | none => exact .none
  | some h => exact .some (hRS _ _ _ h)

theorem SortedSet.IsUnion.symm {α : Type} [Ord α] {s s₁ s₂ : SortedSet α}
    (h : s.IsUnion s₁ s₂) : s.IsUnion s₂ s₁ :=
  ⟨fun t => (h.mem t).trans or_comm, h.right, h.left⟩

theorem Together.getD {o o₁ o₂ : Option States} (h : Together SortedSet.IsUnion o o₁ o₂)
    {d : States} (hd : ∃ t, t ∈ d) : (o.getD d).IsUnion (o₁.getD d) (o₂.getD d) := by
  cases h with
  | none => exact SortedSet.isUnion_self hd
  | some h => exact h

namespace SortedMap

variable {κ : Type} [Ord κ] [DecidableEq κ] {m m₁ m₂ : SortedMap κ States}

/-- A map has the keys of each of two others, and for each key the union of their states. -/
def IsUnion (m m₁ m₂ : SortedMap κ States) : Prop :=
  ∀ k, Together SortedSet.IsUnion (m.get? k) (m₁.get? k) (m₂.get? k)

/-- Whether each key of a map may be in some state. -/
def Filled (m : SortedMap κ States) : Prop := ∀ k s, m.get? k = some s → ∃ t, t ∈ s

theorem Filled.exists_mayBe_iff (h : m.Filled) {k : κ} :
    (∃ t, m.MayBe k t) ↔ ∃ s, m.get? k = some s := by
  constructor
  · rintro ⟨t, s, hs, -⟩
    exact ⟨s, hs⟩
  · rintro ⟨s, hs⟩
    obtain ⟨t, ht⟩ := h k s hs
    exact ⟨t, s, hs, ht⟩

theorem Filled.insert [Std.TransOrd κ] [Std.LawfulEqOrd κ] (h : m.Filled) {s : States}
    (hs : ∃ t, t ∈ s) (k : κ) : (m.insert k s).Filled := by
  intro a s' hs'
  rw [get?_insert] at hs'
  split at hs'
  · exact Option.some.inj hs' ▸ hs
  · exact h a s' hs'

namespace IsUnion

theorem symm (h : m.IsUnion m₁ m₂) : m.IsUnion m₂ m₁ := by
  intro k
  have hk := h k
  generalize m.get? k = o, m₁.get? k = o₁, m₂.get? k = o₂ at hk ⊢
  cases hk with
  | none => exact .none
  | some hs => exact .some hs.symm

theorem mayBe (h : m.IsUnion m₁ m₂) {k : κ} {t : State} :
    m.MayBe k t ↔ m₁.MayBe k t ∨ m₂.MayBe k t := by
  have hk := h k
  unfold MayBe
  generalize m.get? k = o, m₁.get? k = o₁, m₂.get? k = o₂ at hk
  cases hk with
  | none => simp
  | some hs => simp [hs.mem]

theorem keys (h : m.IsUnion m₁ m₂) {k : κ} :
    (∃ s, m.get? k = some s) ↔ ∃ s, m₁.get? k = some s := by
  have hk := h k
  generalize m.get? k = o, m₁.get? k = o₁, m₂.get? k = o₂ at hk
  cases hk <;> simp

theorem filled_left (h : m.IsUnion m₁ m₂) : m₁.Filled := by
  intro k s hs
  have hk := h k
  rw [hs] at hk
  generalize m.get? k = o, m₂.get? k = o₂ at hk
  cases hk with
  | some hs => exact hs.left

theorem filled (h : m.IsUnion m₁ m₂) : m.Filled := by
  intro k s hs
  obtain ⟨t, ht⟩ := h.filled_left.exists_mayBe_iff.2 (h.keys.1 ⟨s, hs⟩)
  exact ⟨t, (mayBe_of_get? hs).1 (h.mayBe.2 (.inl ht))⟩

theorem known (h : m.IsUnion m₁ m₂) {k : κ} : (∃ t, m.MayBe k t) ↔ ∃ t, m₁.MayBe k t := by
  rw [h.filled.exists_mayBe_iff, h.filled_left.exists_mayBe_iff]
  exact h.keys

theorem of_mayBe (hm : m.Filled) (hm₁ : m₁.Filled) (hm₂ : m₂.Filled)
    (hknown : ∀ k, (∃ t, m₁.MayBe k t) ↔ ∃ t, m₂.MayBe k t)
    (h : ∀ k t, m.MayBe k t ↔ m₁.MayBe k t ∨ m₂.MayBe k t) : m.IsUnion m₁ m₂ := by
  intro k
  have hkeys₁ : (∃ s, m.get? k = some s) ↔ ∃ s, m₁.get? k = some s := by
    rw [← hm.exists_mayBe_iff, ← hm₁.exists_mayBe_iff]
    simp only [h, exists_or]
    exact or_iff_left_of_imp (hknown k).2
  have hkeys₂ : (∃ s, m₁.get? k = some s) ↔ ∃ s, m₂.get? k = some s := by
    rw [← hm₁.exists_mayBe_iff, ← hm₂.exists_mayBe_iff]
    exact hknown k
  have hmem := h k
  cases hs₁ : m₁.get? k with
  | none =>
    have hnone : m.get? k = none ∧ m₂.get? k = none := by
      constructor
      · exact Option.eq_none_iff_forall_ne_some.2 fun s hs => by simpa [hs₁] using hkeys₁.1 ⟨s, hs⟩
      · exact Option.eq_none_iff_forall_ne_some.2 fun s hs => by simpa [hs₁] using hkeys₂.2 ⟨s, hs⟩
    rw [hnone.1, hnone.2]
    exact .none
  | some s₁ =>
    obtain ⟨s, hs⟩ := hkeys₁.2 ⟨s₁, hs₁⟩
    obtain ⟨s₂, hs₂⟩ := hkeys₂.1 ⟨s₁, hs₁⟩
    simp only [mayBe_of_get? hs, mayBe_of_get? hs₁, mayBe_of_get? hs₂] at hmem
    rw [hs, hs₂]
    exact .some ⟨hmem, hm₁ k s₁ hs₁, hm₂ k s₂ hs₂⟩

variable [Std.TransOrd κ] [Std.LawfulEqOrd κ]

theorem insert (h : m.IsUnion m₁ m₂) {s s₁ s₂ : States} (hs : s.IsUnion s₁ s₂) (k : κ) :
    (m.insert k s).IsUnion (m₁.insert k s₁) (m₂.insert k s₂) := by
  intro a
  rw [get?_insert, get?_insert, get?_insert]
  split
  · exact .some hs
  · exact h a

theorem insertAll (h : m.IsUnion m₁ m₂) {s s₁ s₂ : States} (hs : s.IsUnion s₁ s₂)
    (l : List κ) : (l.foldl (fun m k => m.insert k s) m).IsUnion
      (l.foldl (fun m k => m.insert k s₁) m₁) (l.foldl (fun m k => m.insert k s₂) m₂) := by
  induction l generalizing m m₁ m₂ with
  | nil => exact h
  | cons k l ih => exact ih (h.insert hs k)

end IsUnion

end SortedMap

namespace NodeStates

variable {u v w : NodeStates} {e : Expr} {scope : Option FunctionId}

/-- The states of both values, class by class. A class that one side lacks keeps its states. -/
def union (v w : NodeStates) : NodeStates :=
  { v with map := v.map.merge SortedSet.union (fun _ s => s) w.map }

/-- Whether two values have the same classes, and each class some state. -/
structure SameShape (v w : NodeStates) : Prop where
  keys : ∀ c, (∃ s, v.map.get? c = some s) ↔ ∃ s, w.map.get? c = some s
  left : v.map.Filled
  right : w.map.Filled

theorem mayBe_union {c : EquivClass} {t : State} :
    (v.union w).map.MayBe c t ↔ v.map.MayBe c t ∨ w.map.MayBe c t := by
  unfold union SortedMap.MayBe
  rw [SortedMap.get?_merge]
  cases v.map.get? c <;> cases w.map.get? c <;> simp

theorem exists_get?_union {c : EquivClass} : (∃ s, (v.union w).map.get? c = some s) ↔
    (∃ s, v.map.get? c = some s) ∨ ∃ s, w.map.get? c = some s := by
  unfold union
  rw [SortedMap.get?_merge]
  cases v.map.get? c <;> cases w.map.get? c <;> simp

theorem SameShape.isUnion (h : v.SameShape w) : (v.union w).map.IsUnion v.map w.map := by
  refine .of_mayBe (fun c s hs => ?_) h.left h.right (fun c => ?_) fun c t => mayBe_union
  · have hmay : ∃ t, (v.union w).map.MayBe c t := by
      simp only [mayBe_union, exists_or, h.left.exists_mayBe_iff, h.right.exists_mayBe_iff]
      exact exists_get?_union.1 ⟨s, hs⟩
    obtain ⟨t, ht⟩ := hmay
    exact ⟨t, (SortedMap.mayBe_of_get? hs).1 ht⟩
  · rw [h.left.exists_mayBe_iff, h.right.exists_mayBe_iff]
    exact h.keys c

theorem eq_union (h : u.map.IsUnion v.map w.map) (hnode : u.node = v.node) : u = v.union w := by
  have hmap : u.map = (v.union w).map := by
    refine SortedMap.eq_of_mayBe_iff (fun c => ?_) fun c t => h.mayBe.trans mayBe_union.symm
    rw [exists_get?_union, ← h.keys, ← h.symm.keys, or_self_iff]
  obtain ⟨n, m⟩ := u
  obtain rfl : n = v.node := hnode
  obtain rfl : m = (v.union w).map := hmap
  rfl

section Parts

variable (h : u.map.IsUnion v.map w.map)
include h

theorem classOf_of_isUnion : u.classOf e = v.classOf e := by
  have hagree : u.AgreeOn v e := fun _ _ => h.keys
  exact hagree.classOf_eq

theorem together_statesOf :
    Together SortedSet.IsUnion (u.statesOf e) (v.statesOf e) (w.statesOf e) := by
  rw [statesOf_eq_bind, statesOf_eq_bind, statesOf_eq_bind, ← classOf_of_isUnion h,
    ← classOf_of_isUnion h.symm]
  cases u.classOf e with
  | none => exact .none
  | some c => exact h c

theorem isUnion_carried : (u.carried scope).IsUnion (v.carried scope) (w.carried scope) := by
  intro c
  rw [get?_carried, get?_carried, get?_carried]
  split
  · exact .none
  · exact h c

theorem isUnion_without (f : FunctionId) :
    (u.without f).map.IsUnion (v.without f).map (w.without f).map := by
  intro c
  rw [get?_without, get?_without, get?_without]
  split
  · exact .none
  · exact h c

theorem isUnion_handOver (pairs : List (Expr × Expr)) {m m₁ m₂ : ExprStates}
    (hm : m.IsUnion m₁ m₂) :
    (u.handOver pairs m).IsUnion (v.handOver pairs m₁) (w.handOver pairs m₂) := by
  unfold handOver
  induction pairs generalizing m m₁ m₂ with
  | nil => exact hm
  | cons x pairs ih =>
    obtain ⟨target, source⟩ := x
    apply ih
    dsimp only
    have hs := together_statesOf h (e := source)
    generalize u.statesOf source = o, v.statesOf source = o₁, w.statesOf source = o₂ at hs
    cases hs with
    | none => exact hm
    | some hs => exact hm.insert hs target

end Parts

theorem exists_mem_of_statesOf (hv : v.map.Filled) {s : States} (hs : v.statesOf e = some s) :
    ∃ t, t ∈ s := by
  rw [statesOf_eq_bind] at hs
  obtain ⟨c, -, hc⟩ := Option.bind_eq_some_iff.1 hs
  exact hv c s hc

theorem filled_flatten (hv : v.map.Filled) : (v.flatten scope).Filled := by
  refine List.foldlRecOn v.map.entries _ nofun ?_
  rintro m hm ⟨c, s⟩ hx
  dsimp only
  split
  · obtain ⟨t, ht⟩ := hv c s (SortedMap.mem_entries_iff.1 hx)
    refine List.foldlRecOn c.toList _ hm fun m hm e _ => ?_
    exact hm.insert ⟨t, SortedSet.mem_union.2 (.inr ht)⟩ e
  · exact hm

theorem isUnion_flatten (h : u.map.IsUnion v.map w.map) :
    (u.flatten scope).IsUnion (v.flatten scope) (w.flatten scope) := by
  refine .of_mayBe (filled_flatten h.filled) (filled_flatten h.filled_left)
    (filled_flatten h.symm.filled_left) (fun e => ?_) fun e t => ?_
  · simp only [mayBe_flatten]
    constructor
    · rintro ⟨t, c, he, hc, ht⟩
      obtain ⟨t', ht'⟩ := h.symm.known.1 (h.known.2 ⟨t, ht⟩)
      exact ⟨t', c, he, hc, ht'⟩
    · rintro ⟨t, c, he, hc, ht⟩
      obtain ⟨t', ht'⟩ := h.known.1 (h.symm.known.2 ⟨t, ht⟩)
      exact ⟨t', c, he, hc, ht'⟩
  · simp only [mayBe_flatten, h.mayBe, and_or_left, exists_or]

end NodeStates

namespace StatesContext

open NodeStates

variable {ctx : StatesContext} {k n n' : NodeId} {u v w : NodeStates} {c : EquivClass}
  {l : List PossibleMatch}

section Gather

variable {exprs exprs₁ exprs₂ : ExprStates} {extra extra₁ extra₂ : ClassStates}

/-- Whether a class gets the default state for lack of others is the same for both sides. -/
theorem isUnion_gather (h : exprs.IsUnion exprs₁ exprs₂) :
    (ctx.gather exprs c).IsUnion (ctx.gather exprs₁ c) (ctx.gather exprs₂ c) := by
  have hunknown : ∀ {m m₁ m₂ : ExprStates}, m.IsUnion m₁ m₂ →
      ((∀ e ∈ c, ∀ t', ¬ m.MayBe e t') ↔ ∀ e ∈ c, ∀ t', ¬ m₁.MayBe e t') := by
    intro m m₁ m₂ hm
    refine forall₂_congr fun e _ => ?_
    rw [← not_exists, ← not_exists, hm.known]
  have hmem : ∀ t, (∃ e ∈ c, exprs.MayBe e t) ↔
      (∃ e ∈ c, exprs₁.MayBe e t) ∨ ∃ e ∈ c, exprs₂.MayBe e t := by
    intro t
    simp only [h.mayBe, and_or_left, exists_or]
  refine ⟨fun t => ?_, exists_mem_gather, exists_mem_gather⟩
  rw [mem_gather, mem_gather, mem_gather, ← hunknown h, ← hunknown h.symm, hmem]
  exact or_or_distrib_right

theorem isUnion_regroup (h : exprs.IsUnion exprs₁ exprs₂) (hextra : extra.IsUnion extra₁ extra₂) :
    (ctx.regroup n exprs extra).map.IsUnion (ctx.regroup n exprs₁ extra₁).map
      (ctx.regroup n exprs₂ extra₂).map := by
  have hfilled : ∀ {m : ExprStates} {x : ClassStates}, x.Filled →
      (ctx.regroup n m x).map.Filled := fun hx _ _ hs =>
    (covers_regroup fun c s _ => hx c s).nonempty hs
  have hleft := hfilled (m := exprs₁) hextra.filled_left
  have hright := hfilled (m := exprs₂) hextra.symm.filled_left
  refine .of_mayBe (hfilled hextra.filled) hleft hright (fun c => ?_) fun c t => ?_
  · rw [hleft.exists_mayBe_iff, hright.exists_mayBe_iff, exists_get?_regroup,
      exists_get?_regroup, ← hextra.keys, ← hextra.symm.keys]
  · simp only [mayBe_regroup_iff, (isUnion_gather h).mem, hextra.mayBe]
    tauto

end Gather

section Rules

variable (h : u.map.IsUnion v.map w.map)
include h

theorem isUnion_copied (target source : Expr) : (ctx.copied u n target source).map.IsUnion
    (ctx.copied v n target source).map (ctx.copied w n target source).map := by
  have hs := (together_statesOf h (e := source)).getD (d := ctx.defaults)
    ⟨ctx.automaton.default, mem_defaults.2 rfl⟩
  exact isUnion_regroup ((isUnion_flatten h).insert hs target) (isUnion_carried h)

theorem groupRules_of_isUnion : u.groupRules l = v.groupRules l := by
  have hadd : u.addRule = v.addRule := by
    funext groups m
    rw [addRule, addRule, classOf_of_isUnion h]
  rw [groupRules, groupRules, hadd]

omit h in
theorem isUnion_fireGroup {s s₁ s₂ : States} (hs : s.IsUnion s₁ s₂) (g : RuleGroup) :
    (ctx.fireGroup k g s).states.IsUnion (ctx.fireGroup k g s₁).states
      (ctx.fireGroup k g s₂).states := by
  have hfires : ∀ {s : States}, (∃ t, t ∈ s) → ∃ t, t ∈ (ctx.fireGroup k g s).states := by
    rintro s ⟨t, ht⟩
    obtain ⟨t', ht'⟩ := exists_mem_fireIn ctx k g t
    exact ⟨t', mem_fireGroup.2 ⟨t, ht, ht'⟩⟩
  refine ⟨fun t => ?_, hfires hs.left, hfires hs.right⟩
  simp only [mem_fireGroup, hs.mem, or_and_right, exists_or]

theorem isUnion_applyGroup {r r₁ r₂ : Applied} (hr : r.exprs.IsUnion r₁.exprs r₂.exprs)
    (x : EquivClass × RuleGroup) : (ctx.applyGroup k u r x).exprs.IsUnion
      (ctx.applyGroup k v r₁ x).exprs (ctx.applyGroup k w r₂ x).exprs := by
  unfold applyGroup
  have hs := h x.2.cls
  generalize u.map.get? x.2.cls = o, v.map.get? x.2.cls = o₁, w.map.get? x.2.cls = o₂ at hs
  cases hs with
  | none => exact hr
  | some hs => exact hr.insertAll (isUnion_fireGroup hs x.2) x.1.toList

theorem isUnion_applyRules {m m₁ m₂ : ExprStates} (hm : m.IsUnion m₁ m₂) :
    (ctx.applyRules k u l m).exprs.IsUnion (ctx.applyRules k v l m₁).exprs
      (ctx.applyRules k w l m₂).exprs := by
  unfold applyRules
  rw [← groupRules_of_isUnion h, ← groupRules_of_isUnion h.symm]
  generalize (u.groupRules l).entries = groups
  have fold : ∀ {r r₁ r₂ : Applied}, r.exprs.IsUnion r₁.exprs r₂.exprs →
      (groups.foldl (ctx.applyGroup k u) r).exprs.IsUnion
        (groups.foldl (ctx.applyGroup k v) r₁).exprs
        (groups.foldl (ctx.applyGroup k w) r₂).exprs := by
    induction groups with
    | nil => exact fun hr => hr
    | cons x groups ih => exact fun hr => ih (isUnion_applyGroup h hr x)
  exact fold hm

theorem incidents_applied_of_isUnion {i : Incident} :
    i ∈ (ctx.applied u k n l).incidents ↔
      i ∈ (ctx.applied v k n l).incidents ∨ i ∈ (ctx.applied w k n l).incidents := by
  simp only [mem_incidents_applied_iff, ← classOf_of_isUnion h, ← classOf_of_isUnion h.symm,
    h.mayBe, or_and_right, and_or_left, exists_or]

end Rules

end StatesContext

end Typestate
