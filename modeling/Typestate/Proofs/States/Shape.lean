import Typestate.Proofs.Fixpoint
import Typestate.Proofs.States.Classes
import Typestate.States.Transfer

/-!
# The shape of values

A value at a node has a nonempty set of states for each class there and for no other. Values
of one shape are told apart by the states that their classes may be in. Meets only add states,
so the values of the states pass rise.
-/
namespace Typestate

namespace SortedMap

variable {κ : Type} [Ord κ] [Std.TransOrd κ] [Std.LawfulEqOrd κ] [DecidableEq κ]

/-- Whether a key may be in a state. -/
def MayBe (m : SortedMap κ States) (k : κ) (t : State) : Prop := ∃ s, m.get? k = some s ∧ t ∈ s

omit [Std.TransOrd κ] [Std.LawfulEqOrd κ] in
theorem mayBe_of_get? {m : SortedMap κ States} {k : κ} {s : States} (h : m.get? k = some s)
    {t : State} : m.MayBe k t ↔ t ∈ s := by
  constructor
  · rintro ⟨s', hs', ht⟩
    rw [h] at hs'
    exact Option.some.inj hs' ▸ ht
  · intro ht
    exact ⟨s, h, ht⟩

omit [Std.TransOrd κ] [Std.LawfulEqOrd κ] in
theorem not_mayBe_empty {k : κ} {t : State} : ¬ (∅ : SortedMap κ States).MayBe k t := by
  rintro ⟨s, hs, -⟩
  cases hs

theorem mayBe_insert {m : SortedMap κ States} {k a : κ} {s : States} {t : State} :
    (m.insert k s).MayBe a t ↔ if a = k then t ∈ s else m.MayBe a t := by
  unfold MayBe
  rw [get?_insert]
  split <;> simp

theorem mayBe_foldl_insert {l : List κ} {m : SortedMap κ States} {s : States} {a : κ}
    {t : State} : (l.foldl (fun m k => m.insert k s) m).MayBe a t ↔
      if a ∈ l then t ∈ s else m.MayBe a t := by
  induction l generalizing m with
  | nil => simp
  | cons k l ih =>
    rw [List.foldl_cons, ih, mayBe_insert]
    by_cases hl : a ∈ l
    · simp [hl]
    · simp [hl]

theorem eq_of_mayBe_iff {m m' : SortedMap κ States}
    (hkeys : ∀ k, (∃ s, m.get? k = some s) ↔ ∃ s, m'.get? k = some s)
    (h : ∀ k t, m.MayBe k t ↔ m'.MayBe k t) : m = m' := by
  refine ext fun k => ?_
  cases hs : m.get? k with
  | none =>
    refine (Option.eq_none_iff_forall_ne_some.2 fun s' hs' => ?_).symm
    obtain ⟨s, hs''⟩ := (hkeys k).2 ⟨s', hs'⟩
    rw [hs] at hs''
    cases hs''
  | some s =>
    obtain ⟨s', hs'⟩ := (hkeys k).1 ⟨s, hs⟩
    rw [hs']
    refine congrArg some (SortedSet.ext fun t => ?_)
    rw [← mayBe_of_get? hs, ← mayBe_of_get? hs']
    exact h k t

end SortedMap

namespace NodeStates

theorem classOf_eq_find? {v : NodeStates} {e : Expr} :
    v.classOf e = v.map.keys.find? (e.simplify ∈ ·) := by
  unfold classOf entryOf SortedMap.keys
  rw [List.find?_map]
  rfl

theorem statesOf_eq_bind {v : NodeStates} {e : Expr} :
    v.statesOf e = (v.classOf e).bind v.map.get? := by
  unfold statesOf classOf
  cases hx : v.entryOf e with
  | none => rfl
  | some x => exact (SortedMap.mem_entries_iff.1 (List.mem_of_find?_eq_some hx)).symm

section Lookup

variable {v : NodeStates} {e : Expr} {c : EquivClass} {s : States}

/-- Whether no two classes hold an expression. -/
def HoldsOnce (v : NodeStates) (x : Expr) : Prop :=
  ∀ c d s t, v.map.get? c = some s → v.map.get? d = some t → x ∈ c → x ∈ d → c = d

theorem entryOf_some (h : v.entryOf e = some (c, s)) :
    e.simplify ∈ c ∧ v.map.get? c = some s := by
  refine ⟨?_, SortedMap.mem_entries_iff.1 (List.mem_of_find?_eq_some h)⟩
  simpa using List.find?_some h

theorem holdsOnce_iff : v.HoldsOnce e.simplify ↔
    ∀ c s, e.simplify ∈ c → v.map.get? c = some s → v.entryOf e = some (c, s) := by
  constructor
  · intro honce c s he hs
    cases hentry : v.entryOf e with
    | none =>
      have hall := List.find?_eq_none.1 hentry (c, s) (SortedMap.mem_entries_iff.2 hs)
      exact absurd (by simpa using he) hall
    | some y =>
      obtain ⟨d, t⟩ := y
      obtain ⟨hed, ht⟩ := entryOf_some hentry
      obtain rfl := honce c d s t hs ht he hed
      rw [hs] at ht
      rw [Option.some.inj ht]
  · intro hfinds c d s t hs ht hc hd
    have hsame := (hfinds c s hc hs).symm.trans (hfinds d t hd ht)
    exact congrArg Prod.fst (Option.some.inj hsame)

end Lookup

/-- Every state that a class may be in is one that it may be in on the other side. -/
def Below (v w : NodeStates) : Prop := ∀ c t, v.map.MayBe c t → w.map.MayBe c t

theorem mayBe_meet_left {v w : NodeStates} {defaults : States} {scope : Option FunctionId}
    {c : EquivClass} {t : State} (h : v.map.MayBe c t) :
    (v.meet defaults scope w).map.MayBe c t := by
  obtain ⟨s, hs, ht⟩ := h
  unfold meet SortedMap.MayBe
  rw [SortedMap.get?_merge, hs]
  cases w.map.get? c with
  | some s' => exact ⟨s.union s', rfl, SortedSet.mem_union.2 (.inl ht)⟩
  | none =>
    refine ⟨widen defaults scope c s, rfl, ?_⟩
    unfold widen
    split
    · exact SortedSet.mem_union.2 (.inl ht)
    · exact ht

theorem mayBe_meet_right {v w : NodeStates} {defaults : States} {scope : Option FunctionId}
    {c : EquivClass} {t : State} (h : w.map.MayBe c t) :
    (v.meet defaults scope w).map.MayBe c t := by
  obtain ⟨s, hs, ht⟩ := h
  unfold meet SortedMap.MayBe
  rw [SortedMap.get?_merge, hs]
  cases v.map.get? c with
  | some s' => exact ⟨s'.union s, rfl, SortedSet.mem_union.2 (.inr ht)⟩
  | none =>
    refine ⟨widen defaults scope c s, rfl, ?_⟩
    unfold widen
    split
    · exact SortedSet.mem_union.2 (.inl ht)
    · exact ht

theorem exists_get?_meet {v w : NodeStates} {defaults : States} {scope : Option FunctionId}
    {c : EquivClass} : (∃ s, (v.meet defaults scope w).map.get? c = some s) ↔
      (∃ s, v.map.get? c = some s) ∨ ∃ s, w.map.get? c = some s := by
  unfold meet
  rw [SortedMap.get?_merge]
  cases v.map.get? c <;> cases w.map.get? c <;> simp

/-- A meet has no states but those of both sides and the default ones. -/
theorem mayBe_of_meet {v w : NodeStates} {defaults : States} {scope : Option FunctionId}
    {c : EquivClass} {t : State} (h : (v.meet defaults scope w).map.MayBe c t) :
    v.map.MayBe c t ∨ w.map.MayBe c t ∨ t ∈ defaults := by
  have hwiden : ∀ {s}, t ∈ widen defaults scope c s → t ∈ s ∨ t ∈ defaults := by
    intro s ht
    unfold widen at ht
    split at ht
    · exact SortedSet.mem_union.1 ht
    · exact .inl ht
  obtain ⟨s, hs, ht⟩ := h
  unfold meet at hs
  rw [SortedMap.get?_merge] at hs
  cases hv : v.map.get? c with
  | none =>
    cases hw : w.map.get? c with
    | none => simp [hv, hw] at hs
    | some s₂ =>
      rw [hv, hw] at hs
      obtain rfl := Option.some.inj hs
      exact .inr ((hwiden ht).imp_left fun ht => ⟨s₂, hw, ht⟩)
  | some s₁ =>
    cases hw : w.map.get? c with
    | none =>
      rw [hv, hw] at hs
      obtain rfl := Option.some.inj hs
      exact (hwiden ht).imp (fun ht => ⟨s₁, hv, ht⟩) .inr
    | some s₂ =>
      rw [hv, hw] at hs
      obtain rfl := Option.some.inj hs
      exact (SortedSet.mem_union.1 ht).imp (fun ht => ⟨s₁, hv, ht⟩) fun ht => .inl ⟨s₂, hw, ht⟩

end NodeStates

namespace StatesContext

variable {ctx : StatesContext} {n : NodeId} {v w : NodeStates} {c : EquivClass} {e : Expr}
  {t : State}

/-- A value at a node has states for the classes there and no others. -/
structure Fits (ctx : StatesContext) (n : NodeId) (v : NodeStates) : Prop where
  node : v.node = n
  keys : ∀ c, (∃ s, v.map.get? c = some s) ↔ c ∈ ctx.classesAt n
  nonempty : ∀ {c s}, v.map.get? c = some s → ∃ t, t ∈ s

namespace Fits

theorem get?_of_mem (hv : ctx.Fits n v) (hc : c ∈ ctx.classesAt n) :
    ∃ s, v.map.get? c = some s := (hv.keys c).2 hc

theorem get?_of_not_mem (hv : ctx.Fits n v) (hc : c ∉ ctx.classesAt n) :
    v.map.get? c = none :=
  Option.eq_none_iff_forall_ne_some.2 fun s hs => hc ((hv.keys c).1 ⟨s, hs⟩)

theorem mem_of_mayBe (hv : ctx.Fits n v) (h : v.map.MayBe c t) : c ∈ ctx.classesAt n := by
  obtain ⟨s, hs, -⟩ := h
  exact (hv.keys c).1 ⟨s, hs⟩

theorem exists_mayBe (hv : ctx.Fits n v) (hc : c ∈ ctx.classesAt n) :
    ∃ t, v.map.MayBe c t := by
  obtain ⟨s, hs⟩ := hv.get?_of_mem hc
  obtain ⟨t, ht⟩ := hv.nonempty hs
  exact ⟨t, s, hs, ht⟩

theorem eq_of_mayBe_iff (hv : ctx.Fits n v) (hw : ctx.Fits n w)
    (h : ∀ c t, v.map.MayBe c t ↔ w.map.MayBe c t) : v = w := by
  have hmap : v.map = w.map :=
    SortedMap.eq_of_mayBe_iff (fun c => (hv.keys c).trans (hw.keys c).symm) h
  obtain ⟨nv, mv⟩ := v
  obtain ⟨nw, mw⟩ := w
  obtain rfl : nv = n := hv.node
  obtain rfl : nw = nv := hw.node
  exact congrArg _ hmap

theorem holdsOnce (hreg : ctx.Regular) (hv : ctx.Fits n v) : v.HoldsOnce e :=
  fun c d s t hs ht hc hd => hreg.disjoint ((hv.keys c).1 ⟨s, hs⟩) ((hv.keys d).1 ⟨t, ht⟩) hc hd

theorem entryOf_eq_some (hreg : ctx.Regular) (hv : ctx.Fits n v) {s : States} :
    v.entryOf e = some (c, s) ↔ e.simplify ∈ c ∧ v.map.get? c = some s := by
  constructor
  · exact NodeStates.entryOf_some
  · rintro ⟨he, hs⟩
    exact NodeStates.holdsOnce_iff.1 (hv.holdsOnce hreg) c s he hs

theorem classOf_eq_some (hreg : ctx.Regular) (hv : ctx.Fits n v) :
    v.classOf e = some c ↔ c ∈ ctx.classesAt n ∧ e.simplify ∈ c := by
  rw [NodeStates.classOf, Option.map_eq_some_iff, ← hv.keys]
  constructor
  · rintro ⟨⟨c', s⟩, hx, rfl⟩
    obtain ⟨he, hs⟩ := (hv.entryOf_eq_some hreg).1 hx
    exact ⟨⟨s, hs⟩, he⟩
  · rintro ⟨⟨s, hs⟩, he⟩
    exact ⟨(c, s), (hv.entryOf_eq_some hreg).2 ⟨he, hs⟩, rfl⟩

theorem classOf_congr (hreg : ctx.Regular) (hv : ctx.Fits n v) (hw : ctx.Fits n w) :
    v.classOf e = w.classOf e :=
  Option.ext fun _ => (hv.classOf_eq_some hreg).trans (hw.classOf_eq_some hreg).symm

theorem mem_statesOf (hreg : ctx.Regular) (hv : ctx.Fits n v) :
    (∃ s, v.statesOf e = some s ∧ t ∈ s) ↔ ∃ c, e.simplify ∈ c ∧ v.map.MayBe c t := by
  constructor
  · rintro ⟨s, hs, ht⟩
    obtain ⟨⟨c, s'⟩, hx, rfl⟩ := Option.map_eq_some_iff.1 hs
    obtain ⟨he, hs⟩ := (hv.entryOf_eq_some hreg).1 hx
    exact ⟨c, he, s', hs, ht⟩
  · rintro ⟨c, he, s, hs, ht⟩
    refine ⟨s, ?_, ht⟩
    rw [NodeStates.statesOf, (hv.entryOf_eq_some hreg).2 ⟨he, hs⟩, Option.map_some]

theorem get?_meet (hv : ctx.Fits n v) (hw : ctx.Fits n w) (hc : c ∈ ctx.classesAt n) :
    ∃ s₁ s₂, v.map.get? c = some s₁ ∧ w.map.get? c = some s₂ ∧
      (ctx.meet v w).map.get? c = some (s₁.union s₂) := by
  obtain ⟨s₁, h₁⟩ := hv.get?_of_mem hc
  obtain ⟨s₂, h₂⟩ := hw.get?_of_mem hc
  refine ⟨s₁, s₂, h₁, h₂, ?_⟩
  unfold StatesContext.meet NodeStates.meet
  rw [SortedMap.get?_merge, h₁, h₂]

theorem get?_meet_of_not_mem (hv : ctx.Fits n v) (hw : ctx.Fits n w)
    (hc : c ∉ ctx.classesAt n) : (ctx.meet v w).map.get? c = none := by
  unfold StatesContext.meet NodeStates.meet
  rw [SortedMap.get?_merge, hv.get?_of_not_mem hc, hw.get?_of_not_mem hc]

theorem meet (hv : ctx.Fits n v) (hw : ctx.Fits n w) : ctx.Fits n (ctx.meet v w) where
  node := hv.node
  keys c := by
    by_cases hc : c ∈ ctx.classesAt n
    · obtain ⟨s₁, s₂, -, -, hs⟩ := hv.get?_meet hw hc
      exact ⟨fun _ => hc, fun _ => ⟨_, hs⟩⟩
    · simp [hv.get?_meet_of_not_mem hw hc, hc]
  nonempty {c s} hs := by
    by_cases hc : c ∈ ctx.classesAt n
    · obtain ⟨t, ht⟩ := hv.exists_mayBe hc
      exact ⟨t, (SortedMap.mayBe_of_get? hs).1 (NodeStates.mayBe_meet_left ht)⟩
    · rw [hv.get?_meet_of_not_mem hw hc] at hs
      cases hs

/-- On two values of one shape a meet has the states of either and no others. -/
theorem mayBe_meet (hv : ctx.Fits n v) (hw : ctx.Fits n w) :
    (ctx.meet v w).map.MayBe c t ↔ v.map.MayBe c t ∨ w.map.MayBe c t := by
  constructor
  · intro h
    obtain ⟨s₁, s₂, h₁, h₂, hs⟩ := hv.get?_meet hw ((hv.meet hw).mem_of_mayBe h)
    rw [SortedMap.mayBe_of_get? hs, SortedSet.mem_union] at h
    rw [SortedMap.mayBe_of_get? h₁, SortedMap.mayBe_of_get? h₂]
    exact h
  · rintro (h | h)
    · exact NodeStates.mayBe_meet_left h
    · exact NodeStates.mayBe_meet_right h

end Fits

theorem mem_defaults : t ∈ ctx.defaults ↔ t = ctx.automaton.default := SortedSet.mem_singleton

theorem mayBe_initial :
    (ctx.initial n).map.MayBe c t ↔ c ∈ ctx.classesAt n ∧ t = ctx.automaton.default := by
  unfold initial SortedMap.MayBe
  rw [SortedMap.get?_tabulate]
  by_cases hc : c ∈ ctx.classesAt n
  · simp [hc, mem_defaults]
  · simp [hc]

theorem fits_initial : ctx.Fits n (ctx.initial n) where
  node := rfl
  keys c := by
    unfold initial
    rw [SortedMap.get?_tabulate]
    split <;> simp [*]
  nonempty {c s} hs := by
    unfold initial at hs
    rw [SortedMap.get?_tabulate] at hs
    split at hs
    · exact ⟨ctx.automaton.default, Option.some.inj hs ▸ mem_defaults.2 rfl⟩
    · cases hs

/-- Values rise by gaining states. -/
theorem rises_problem (ctx : StatesContext) : ctx.problem.Rises NodeStates.Below where
  refl _ _ _ h := h
  trans huv hvw c t h := hvw c t (huv c t h)
  meet_left _ _ _ _ h := NodeStates.mayBe_meet_left h
  meet_right _ _ _ _ h := NodeStates.mayBe_meet_right h

end StatesContext

end Typestate
