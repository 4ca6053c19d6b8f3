import Typestate.Proofs.States.Shape

/-!
# Meets of values

Values at a node form a semilattice under their meet, for any default states and any scope. Which
side lacks a class does not show in the end: a class in scope that is missing on one of several
sides gets the default states once and for all, and any other class just what the sides have.
-/
namespace Typestate

namespace NodeStates

/-- What a meet has of a class, given what each side has of it. -/
def meetAt (defaults : States) (inScope : Bool) : Option States → Option States → Option States
  | some s, some t => some (s.union t)
  | some s, none | none, some s => some (if inScope then s.union defaults else s)
  | none, none => none

section MeetAt

variable (defaults : States) (inScope : Bool) (a b c : Option States)

theorem meetAt_self : meetAt defaults inScope a a = a := by
  cases a with
  | none => rfl
  | some s => exact congrArg some s.union_self

theorem meetAt_comm : meetAt defaults inScope a b = meetAt defaults inScope b a := by
  cases a with
  | none => cases b <;> rfl
  | some s =>
    cases b with
    | none => rfl
    | some t => exact congrArg some (s.union_comm t)

/-- The defaults come in as soon as one of three sides lacks a class in scope, whichever it is. -/
theorem meetAt_assoc : meetAt defaults inScope (meetAt defaults inScope a b) c =
    meetAt defaults inScope a (meetAt defaults inScope b c) := by
  cases a <;> cases b <;> cases c <;> cases inScope <;>
    simp only [meetAt, if_true, Bool.false_eq_true, if_false, Option.some.injEq] <;>
    apply SortedSet.ext <;> grind [SortedSet.mem_union]

theorem subset_meetAt {s : States} (h : a = some s) :
    ∃ t, meetAt defaults inScope a b = some t ∧ ∀ x ∈ s, x ∈ t := by
  subst h
  cases b with
  | some t => exact ⟨_, rfl, fun x hx => SortedSet.mem_union.2 (.inl hx)⟩
  | none =>
    refine ⟨_, rfl, fun x hx => ?_⟩
    split
    · exact SortedSet.mem_union.2 (.inl hx)
    · exact hx

end MeetAt

variable {u v w : NodeStates} {defaults : States} {scope : Option FunctionId}

theorem get?_meet {c : EquivClass} : (u.meet defaults scope v).map.get? c =
    meetAt defaults (EquivClass.isInScope c scope) (u.map.get? c) (v.map.get? c) := by
  unfold meet
  rw [SortedMap.get?_merge]
  cases u.map.get? c <;> cases v.map.get? c <;> rfl

theorem ext {u v : NodeStates} (hnode : u.node = v.node) (h : ∀ c, u.map.get? c = v.map.get? c) :
    u = v := by
  obtain ⟨n, m⟩ := u
  obtain ⟨n', m'⟩ := v
  obtain rfl : n = n' := hnode
  exact congrArg _ (SortedMap.ext h)

/-- Whether exactly one of two values has a class, with the given states. -/
def OneSided (u v : NodeStates) (c : EquivClass) (s : States) : Prop :=
  u.map.get? c = some s ∧ v.map.get? c = none ∨ u.map.get? c = none ∧ v.map.get? c = some s

/-- Whether a value has the classes of both of two values, each with the states of both. A class
that one of them lacks may be in the default states, too, if it is in scope. -/
structure IsMeet (defaults : States) (scope : Option FunctionId) (u v w : NodeStates) : Prop where
  classes : ∀ c, (∃ s, w.map.get? c = some s) ↔
    (∃ s, u.map.get? c = some s) ∨ ∃ s, v.map.get? c = some s
  both : ∀ {c s t}, u.map.get? c = some s → v.map.get? c = some t →
    w.map.get? c = some (s.union t)
  inScope : ∀ {c s}, OneSided u v c s → EquivClass.isInScope c scope = true →
    w.map.get? c = some (s.union defaults)
  outOfScope : ∀ {c s}, OneSided u v c s → EquivClass.isInScope c scope = false →
    w.map.get? c = some s

theorem isMeet_meet : IsMeet defaults scope u v (u.meet defaults scope v) where
  classes _ := exists_get?_meet
  both hu hv := by rw [get?_meet, hu, hv]; rfl
  inScope := by
    rintro c s (⟨hu, hv⟩ | ⟨hu, hv⟩) hscope <;> rw [get?_meet, hu, hv, hscope] <;> rfl
  outOfScope := by
    rintro c s (⟨hu, hv⟩ | ⟨hu, hv⟩) hscope <;> rw [get?_meet, hu, hv, hscope] <;> rfl

theorem meet_self : u.meet defaults scope u = u :=
  ext rfl fun _ => get?_meet.trans (meetAt_self ..)

theorem meet_comm (h : u.node = v.node) : u.meet defaults scope v = v.meet defaults scope u := by
  refine ext h fun c => ?_
  rw [get?_meet, get?_meet, meetAt_comm]

theorem meet_assoc : (u.meet defaults scope v).meet defaults scope w =
    u.meet defaults scope (v.meet defaults scope w) := by
  refine ext rfl fun c => ?_
  rw [get?_meet, get?_meet, get?_meet, get?_meet, meetAt_assoc]

/-- Whether another value has all states that a value has of each class. A class that it lacks is
in the default states there if it is in scope, and in none if it is not. -/
structure LiesUnder (defaults : States) (scope : Option FunctionId) (v w : NodeStates) : Prop where
  both : ∀ {c s t}, v.map.get? c = some s → w.map.get? c = some t → ∀ x ∈ s, x ∈ t
  inScope : ∀ {c s}, v.map.get? c = some s → w.map.get? c = none →
    EquivClass.isInScope c scope = true → ∀ x ∈ s, x ∈ defaults
  outOfScope : ∀ {c s}, v.map.get? c = some s → w.map.get? c = none →
    EquivClass.isInScope c scope = false → ∀ x, x ∉ s

theorem isSubsetOf_iff : v.isSubsetOf defaults scope w = true ↔ LiesUnder defaults scope v w := by
  unfold isSubsetOf
  rw [List.all_eq_true]
  constructor
  · intro h
    have hentry : ∀ {c s}, v.map.get? c = some s → _ :=
      fun {c s} hs => h (c, s) (SortedMap.mem_entries_iff.2 hs)
    refine ⟨fun hs ht => ?_, fun hs hnone hscope => ?_, fun hs hnone hscope => ?_⟩
    · have := hentry hs
      simp only [ht] at this
      exact SortedSet.isSubset_iff.1 this
    · have := hentry hs
      simp only [hnone, hscope, if_true] at this
      exact SortedSet.isSubset_iff.1 this
    · have := hentry hs
      simp only [hnone, hscope, Bool.false_eq_true, if_false] at this
      exact SortedSet.isEmpty_iff.1 this
  · rintro h ⟨c, s⟩ hcs
    have hs := SortedMap.mem_entries_iff.1 hcs
    dsimp only
    split
    · rename_i t ht
      exact SortedSet.isSubset_iff.2 (h.both hs ht)
    · rename_i hnone
      split
      · rename_i hscope
        exact SortedSet.isSubset_iff.2 (h.inScope hs hnone hscope)
      · rename_i hscope
        exact SortedSet.isEmpty_iff.2 (h.outOfScope hs hnone (by simpa using hscope))

theorem liesUnder_meet_left : LiesUnder defaults scope u (u.meet defaults scope v) := by
  have hmeet : ∀ {c s}, u.map.get? c = some s →
      ∃ t, (u.meet defaults scope v).map.get? c = some t ∧ ∀ x ∈ s, x ∈ t := by
    intro c s hs
    rw [get?_meet]
    exact subset_meetAt defaults (EquivClass.isInScope c scope) _ (v.map.get? c) hs
  refine ⟨fun hs ht => ?_, fun hs hnone => ?_, fun hs hnone => ?_⟩
  · obtain ⟨t, ht', hsub⟩ := hmeet hs
    rw [ht] at ht'
    exact Option.some.inj ht' ▸ hsub
  · obtain ⟨t, ht, -⟩ := hmeet hs
    cases hnone.symm.trans ht
  · obtain ⟨t, ht, -⟩ := hmeet hs
    cases hnone.symm.trans ht

/-- The meet of values at a node is idempotent, commutative and associative, it has of each class
what the two values have, with the default states where one of them lacks a class in scope, and
both lie under it, which is what a comparison tells. -/
theorem meet_semilattice (defaults : States) (scope : Option FunctionId) (huv : u.node = v.node) :
    u.meet defaults scope u = u ∧
    u.meet defaults scope v = v.meet defaults scope u ∧
    (u.meet defaults scope v).meet defaults scope w =
      u.meet defaults scope (v.meet defaults scope w) ∧
    IsMeet defaults scope u v (u.meet defaults scope v) ∧
    LiesUnder defaults scope u (u.meet defaults scope v) ∧
    LiesUnder defaults scope v (u.meet defaults scope v) ∧
    ∀ x y : NodeStates, x.isSubsetOf defaults scope y = true ↔ LiesUnder defaults scope x y := by
  refine ⟨meet_self, meet_comm huv, meet_assoc, isMeet_meet, liesUnder_meet_left, ?_,
    fun _ _ => isSubsetOf_iff⟩
  rw [meet_comm huv]
  exact liesUnder_meet_left

section OneSided

def aloneOf (f : FunctionId) (name : String) : EquivClass :=
  .singleton (.var ⟨name, some f, .localVar, .pointer⟩)

/-- The value of one path: of a function's pointer `p` and of one of its caller, `q`. -/
def onePath : NodeStates :=
  ⟨3, .ofList [(aloneOf 0 "p", .singleton (.named "ptr.freed")),
    (aloneOf 7 "q", .singleton (.named "ptr.freed"))]⟩

/-- The value of a path on which nothing is known of either pointer. -/
def otherPath : NodeStates := ⟨3, ∅⟩

/-- Where the paths meet, in whichever order, `p` may be in the default state, too, and `q` is as it
was. -/
theorem meet_semilattice_oneSided :
    onePath.meet (.singleton (.named "ptr.start")) (some 0) otherPath =
      otherPath.meet (.singleton (.named "ptr.start")) (some 0) onePath ∧
    (onePath.meet (.singleton (.named "ptr.start")) (some 0) otherPath).map.get? (aloneOf 0 "p") =
      some (.ofList [.named "ptr.freed", .named "ptr.start"]) ∧
    (onePath.meet (.singleton (.named "ptr.start")) (some 0) otherPath).map.get? (aloneOf 7 "q") =
      some (.singleton (.named "ptr.freed")) := by
  obtain ⟨-, hcomm, -, hmeet, -⟩ := meet_semilattice (u := onePath) (v := otherPath)
    (w := onePath) (.singleton (.named "ptr.start")) (some 0) rfl
  refine ⟨hcomm, ?_, ?_⟩
  · rw [hmeet.inScope (s := .singleton (.named "ptr.freed")) (.inl ⟨by decide, rfl⟩) (by decide)]
    decide
  · exact hmeet.outOfScope (.inl ⟨by decide, rfl⟩) (by decide)

end OneSided

end NodeStates

end Typestate
