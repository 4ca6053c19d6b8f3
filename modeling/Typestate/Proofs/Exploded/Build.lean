import Typestate.Exploded.Build
import Typestate.Proofs.Exploded.Prune
import Typestate.Proofs.States.Replay

/-!
# The exploded graph follows replays

What an edge carries of an exploded node reaches, for each state of each class in it, an
exploded node that has this state. It does so however many classes are in several states, though
an exploded node narrows only one of them: where it does not fit in one node, those that narrow a
class to any of its states share the others. So if a replay comes to a node with a class in some
state, the same concrete run leads along the exploded graph to an exploded node with the class in
that state. The threads of states make this an induction on the replay.
-/
namespace Typestate

namespace NodeStates

variable {v w : NodeStates} {n : NodeId} {x : ExplodedNode} {c d : EquivClass} {s : States}
  {t u : State}

theorem get?_restrict : (v.restrict c t).map.get? d =
    if d = c then some (.singleton t) else v.map.get? d := SortedMap.get?_insert

theorem keys_restrict (hs : v.map.get? c = some s) :
    (v.restrict c t).map.keys = v.map.keys := by
  refine eq_of_mem_iff_of_pairwise (R := fun a b => compare a b = .lt) not_lt_of_lt
    (List.pairwise_map.2 (v.restrict c t).map.ascending)
    (List.pairwise_map.2 v.map.ascending) fun d => ?_
  rw [SortedMap.mem_keys_iff, SortedMap.mem_keys_iff, get?_restrict]
  split
  · rename_i hd
    exact iff_of_true ⟨_, rfl⟩ (hd ▸ ⟨s, hs⟩)
  · exact Iff.rfl

theorem mayBe_restrict : (v.restrict c t).map.MayBe d u ↔
    if d = c then u = t else v.map.MayBe d u := by
  unfold restrict
  rw [SortedMap.mayBe_insert, SortedSet.mem_singleton]

theorem isUnambiguous_iff : v.isUnambiguous = true ↔
    ∀ c s, v.map.get? c = some s → s.size ≤ 1 := by
  unfold isUnambiguous SortedMap.values
  rw [List.all_map, List.all_eq_true]
  constructor
  · intro h c s hs
    simpa using h (c, s) (SortedMap.mem_entries_iff.2 hs)
  · rintro h ⟨c, s⟩ hx
    simpa using h c s (SortedMap.mem_entries_iff.1 hx)

theorem exists_of_ambiguous (h : v.isUnambiguous = false) :
    ∃ c s, v.map.get? c = some s ∧ 1 < s.size := by
  apply Classical.byContradiction
  intro hno
  refine Bool.eq_false_iff.1 h (isUnambiguous_iff.2 fun c s hs => ?_)
  exact Nat.le_of_not_lt fun hlt => hno ⟨c, s, hs, hlt⟩

theorem explode_of_isUnambiguous (h : v.isUnambiguous = true) :
    v.explode n = [⟨n, .solo, v⟩] := if_pos h

theorem mem_explode_of_ambiguous (h : v.isUnambiguous = false) :
    x ∈ v.explode n ↔ ∃ c s, v.map.get? c = some s ∧ 1 < s.size ∧
      ∃ t ∈ s, x = ⟨n, .statewise c t, v.restrict c t⟩ := by
  unfold explode
  rw [h, if_neg Bool.false_ne_true]
  constructor
  · intro hx
    obtain ⟨⟨c, s⟩, hcs, hx⟩ := List.mem_flatMap.1 hx
    dsimp only at hx
    split at hx
    · rename_i hsize
      obtain ⟨t, ht, rfl⟩ := List.mem_map.1 hx
      exact ⟨c, s, SortedMap.mem_entries_iff.1 hcs, hsize, t, ht, rfl⟩
    · cases hx
  · rintro ⟨c, s, hs, hsize, t, ht, rfl⟩
    refine List.mem_flatMap.2 ⟨(c, s), SortedMap.mem_entries_iff.2 hs, ?_⟩
    dsimp only
    rw [if_pos (show s.size > 1 from hsize)]
    exact List.mem_map.2 ⟨t, ht, rfl⟩

/-- An exploded node of a value is the value as it is, or one with a class of several states
narrowed to one of them. -/
theorem eq_of_mem_explode (hx : x ∈ v.explode n) : x = ⟨n, .solo, v⟩ ∨
    ∃ c s t, v.map.get? c = some s ∧ 1 < s.size ∧ t ∈ s ∧
      x = ⟨n, .statewise c t, v.restrict c t⟩ := by
  cases h : v.isUnambiguous with
  | true =>
    rw [explode_of_isUnambiguous h, List.mem_singleton] at hx
    exact .inl hx
  | false =>
    obtain ⟨c, s, hs, hsize, t, ht, rfl⟩ := (mem_explode_of_ambiguous h).1 hx
    exact .inr ⟨c, s, t, hs, hsize, ht, rfl⟩

theorem node_of_mem_explode (hx : x ∈ v.explode n) : x.node = n := by
  obtain rfl | ⟨c, s, t, -, -, -, rfl⟩ := eq_of_mem_explode hx <;> rfl

/-- Exploded nodes have no states but those they come from, and neither has the state that one
stands for. -/
theorem below_of_mem_explode (hx : x ∈ v.explode n) : x.states.Below v ∧
    ∀ c t, x.kind = .statewise c t → v.map.MayBe c t := by
  obtain rfl | ⟨c, s, t, hs, -, ht, rfl⟩ := eq_of_mem_explode hx
  · exact ⟨fun _ _ h => h, nofun⟩
  · refine ⟨fun d u hu => ?_, fun d u hkind => ?_⟩
    · rw [mayBe_restrict] at hu
      split at hu
      · rename_i hd
        exact ⟨s, hd ▸ hs, hu ▸ ht⟩
      · exact hu
    · cases hkind
      exact ⟨s, hs, ht⟩

theorem keys_of_mem_explode (hx : x ∈ v.explode n) : x.states.map.keys = v.map.keys := by
  obtain rfl | ⟨c, s, t, hs, -, -, rfl⟩ := eq_of_mem_explode hx
  · rfl
  · exact keys_restrict hs

/-- Whether two values share a state of each class that both have. -/
def SharesStates (v w : NodeStates) : Prop :=
  ∀ c s s', v.map.get? c = some s → w.map.get? c = some s' → ∃ t ∈ s, t ∈ s'

theorem isCompatibleWith_iff : v.isCompatibleWith w = true ↔ v.SharesStates w := by
  unfold isCompatibleWith
  rw [List.all_eq_true]
  constructor
  · intro h c s s' hs hs'
    have hshared := h (c, s) (SortedMap.mem_entries_iff.2 hs)
    simpa [hs', SortedSet.isDisjoint_iff, Bool.eq_false_iff] using hshared
  · rintro h ⟨c, s⟩ hcs
    dsimp only
    split
    · rename_i s' hs'
      obtain ⟨t, ht, ht'⟩ := h c s s' (SortedMap.mem_entries_iff.1 hcs) hs'
      rw [Bool.not_eq_true', Bool.eq_false_iff]
      exact fun hdisjoint => SortedSet.isDisjoint_iff.1 hdisjoint t ht ht'
    · rfl

/-- The classes of a value are among those of another, each with some of its states there. -/
structure Narrows (v w : NodeStates) : Prop where
  nonempty : ∀ {c s}, v.map.get? c = some s → ∃ t, t ∈ s
  below : v.Below w

theorem narrows_iff : v.Narrows w ↔ ∀ x ∈ v.map.entries,
    x.2.toList ≠ [] ∧ ∀ t ∈ x.2.toList, t ∈ (w.map.get? x.1).getD ∅ := by
  constructor
  · rintro h ⟨c, s⟩ hcs
    have hs := SortedMap.mem_entries_iff.1 hcs
    obtain ⟨u, hu⟩ := h.nonempty hs
    refine ⟨List.ne_nil_of_mem hu, fun t ht => ?_⟩
    obtain ⟨s', hs', ht'⟩ := h.below c t ⟨s, hs, ht⟩
    rw [hs']
    exact ht'
  · refine fun h => ⟨fun {c s} hs => ?_, fun c t => ?_⟩
    · exact List.exists_mem_of_ne_nil _ (h (c, s) (SortedMap.mem_entries_iff.2 hs)).1
    · rintro ⟨s, hs, ht⟩
      have hmem := (h (c, s) (SortedMap.mem_entries_iff.2 hs)).2 t ht
      cases hs' : w.map.get? c with
      | none =>
        rw [hs'] at hmem
        cases hmem
      | some s' =>
        rw [hs'] at hmem
        exact ⟨s', hs', hmem⟩

instance : Decidable (v.Narrows w) := decidable_of_iff _ narrows_iff.symm

namespace Narrows

theorem isCompatibleWith (h : v.Narrows w) : v.isCompatibleWith w = true := by
  refine isCompatibleWith_iff.2 fun c s s' hs hs' => ?_
  obtain ⟨t, ht⟩ := h.nonempty hs
  exact ⟨t, ht, (SortedMap.mayBe_of_get? hs').1 (h.below c t ⟨s, hs, ht⟩)⟩

/-- A value is compatible with one that it narrows even if a class is narrowed there to a state
that the value has. -/
theorem isCompatibleWith_restrict (h : v.Narrows w) (ht : ∀ s, v.map.get? c = some s → t ∈ s) :
    v.isCompatibleWith (w.restrict c t) = true := by
  refine isCompatibleWith_iff.2 fun d s s' hs hs' => ?_
  rw [get?_restrict] at hs'
  split at hs'
  · rename_i hdc
    subst hdc
    exact ⟨t, ht s hs, Option.some.inj hs' ▸ SortedSet.mem_singleton.2 rfl⟩
  · exact isCompatibleWith_iff.1 h.isCompatibleWith d s s' hs hs'

theorem exists_restrict (h : v.Narrows w) (hs : w.map.get? c = some s) (hsize : 1 < s.size) :
    ∃ t ∈ s, v.isCompatibleWith (w.restrict c t) = true := by
  cases hv : v.map.get? c with
  | none =>
    obtain ⟨t, ht⟩ := List.exists_mem_of_length_pos (Nat.lt_trans Nat.zero_lt_one hsize)
    exact ⟨t, ht, h.isCompatibleWith_restrict (by simp [hv])⟩
  | some s₀ =>
    obtain ⟨t, ht⟩ := h.nonempty hv
    refine ⟨t, (SortedMap.mayBe_of_get? hs).1 (h.below c t ⟨s₀, hv, ht⟩), ?_⟩
    apply h.isCompatibleWith_restrict
    intro s' hs'
    rw [hv] at hs'
    exact Option.some.inj hs' ▸ ht

theorem of_mem_explode (h : v.Narrows w) (hx : x ∈ w.explode n) {defaults : States}
    {scope : Option FunctionId} (hcontains : x.kind = .solo ∨
      v.isSubsetOf defaults scope x.states = true) : v.Narrows x.states where
  nonempty := h.nonempty
  below := by
    rintro c t ⟨s, hs, ht⟩
    rcases hcontains with hsolo | hsubset
    · obtain rfl | ⟨_, _, _, -, -, -, rfl⟩ := eq_of_mem_explode hx
      · exact h.below c t ⟨s, hs, ht⟩
      · cases hsolo
    · obtain ⟨s₀, hs₀, -⟩ := h.below c t ⟨s, hs, ht⟩
      have hkey := SortedMap.mem_keys_iff.2 ⟨s₀, hs₀⟩
      rw [← keys_of_mem_explode hx] at hkey
      obtain ⟨s', hs'⟩ := SortedMap.mem_keys_iff.1 hkey
      have hall := List.all_eq_true.1 hsubset (c, s) (SortedMap.mem_entries_iff.2 hs)
      simp only [hs'] at hall
      exact ⟨s', hs', SortedSet.isSubset_iff.1 hall t ht⟩

theorem exists_compatible (h : v.Narrows w) (hambiguous : w.isUnambiguous = false) :
    ∃ x ∈ w.explode n, v.isCompatibleWith x.states = true := by
  obtain ⟨c, s, hs, hsize⟩ := exists_of_ambiguous hambiguous
  obtain ⟨t, ht, hcompatible⟩ := h.exists_restrict hs hsize
  exact ⟨_, (mem_explode_of_ambiguous hambiguous).2 ⟨c, s, hs, hsize, t, ht, rfl⟩, hcompatible⟩

theorem exists_compatible_of_mayBe (h : v.Narrows w) (hambiguous : w.isUnambiguous = false)
    (hct : v.map.MayBe c t) :
    ∃ x ∈ w.explode n, v.isCompatibleWith x.states = true ∧ x.states.map.MayBe c t := by
  have hmem := fun x => mem_explode_of_ambiguous (x := x) (n := n) hambiguous
  obtain ⟨s, hs, ht⟩ := h.below c t hct
  by_cases hsize : 1 < s.size
  · refine ⟨_, (hmem _).2 ⟨c, s, hs, hsize, t, ht, rfl⟩, ?_, mayBe_restrict.2 (by simp)⟩
    exact h.isCompatibleWith_restrict fun s' hs' => (SortedMap.mayBe_of_get? hs').1 hct
  · obtain ⟨d, s', hs', hsize'⟩ := exists_of_ambiguous hambiguous
    have hcd : c ≠ d := by
      rintro rfl
      rw [hs] at hs'
      exact hsize (Option.some.inj hs' ▸ hsize')
    obtain ⟨u, hu, hcompatible⟩ := h.exists_restrict hs' hsize'
    refine ⟨_, (hmem _).2 ⟨d, s', hs', hsize', u, hu, rfl⟩, hcompatible, mayBe_restrict.2 ?_⟩
    rw [if_neg hcd]
    exact ⟨s, hs, ht⟩

end Narrows

end NodeStates

namespace StatesContext

open NodeStates

variable {ctx : StatesContext} {n : NodeId} {v w : NodeStates} {c : EquivClass} {t : State}

theorem Fits.restrict (hv : ctx.Fits n v) (hc : c ∈ ctx.classesAt n) :
    ctx.Fits n (v.restrict c t) where
  node := hv.node
  keys d := by
    rw [get?_restrict]
    split
    · rename_i hd
      exact iff_of_true ⟨_, rfl⟩ (hd ▸ hc)
    · exact hv.keys d
  nonempty {d s} hs := by
    rw [get?_restrict] at hs
    split at hs
    · exact ⟨t, Option.some.inj hs ▸ SortedSet.mem_singleton.2 rfl⟩
    · exact hv.nonempty hs

theorem Fits.of_mem_explode (hv : ctx.Fits n v) {x : ExplodedNode} (hx : x ∈ v.explode n) :
    ctx.Fits n x.states := by
  obtain rfl | ⟨c, s, t, hs, -, -, rfl⟩ := eq_of_mem_explode hx
  · exact hv
  · exact hv.restrict ((hv.keys c).1 ⟨s, hs⟩)

theorem Fits.narrows (hv : ctx.Fits n v) (hvw : v.Below w) : v.Narrows w :=
  ⟨hv.nonempty, hvw⟩

section Destinations

variable {candidates : List (NodeId × ExplodedNode)}

theorem mem_of_mem_destinations {y : NodeId × ExplodedNode}
    (hy : y ∈ ctx.destinations n v candidates) : y ∈ candidates := by
  unfold destinations at hy
  dsimp only at hy
  split at hy <;> exact (List.mem_filter.1 hy).1

variable (ctx)

/-- Where some exploded node contains what arrives, all destinations do. Else the value is split,
and they are the compatible nodes. -/
theorem destinations_cases (h : v.Narrows w)
    (hcandidates : ∀ x, (∃ i, (i, x) ∈ candidates) ↔ x ∈ w.explode n) :
    ((∃ y, y ∈ ctx.destinations n v candidates) ∧
      ∀ y ∈ ctx.destinations n v candidates, v.Narrows y.2.states) ∨
    w.isUnambiguous = false ∧ ∀ y, y ∈ ctx.destinations n v candidates ↔
      y ∈ candidates ∧ v.isCompatibleWith y.2.states = true := by
  unfold destinations
  dsimp only
  split
  · rename_i hempty
    refine .inr ⟨?_, fun y => List.mem_filter⟩
    cases hw : w.isUnambiguous with
    | false => rfl
    | true =>
      obtain ⟨i, hi⟩ := (hcandidates ⟨n, .solo, w⟩).2 (by simp [explode_of_isUnambiguous hw])
      have hnone := List.filter_eq_nil_iff.1 (List.isEmpty_iff.1 hempty) _ hi
      simp at hnone
  · rename_i hne
    refine .inl ⟨List.exists_mem_of_ne_nil _ fun h => hne (List.isEmpty_iff.2 h), fun y hy => ?_⟩
    obtain ⟨hi, htest⟩ := List.mem_filter.1 hy
    simp only [Bool.or_eq_true, decide_eq_true_eq] at htest
    exact h.of_mem_explode ((hcandidates y.2).1 ⟨y.1, hi⟩) htest

theorem exists_destination (h : v.Narrows w)
    (hcandidates : ∀ x, (∃ i, (i, x) ∈ candidates) ↔ x ∈ w.explode n) :
    ∃ y, y ∈ ctx.destinations n v candidates := by
  obtain ⟨hex, -⟩ | ⟨hambiguous, hmem⟩ := ctx.destinations_cases h hcandidates
  · exact hex
  · obtain ⟨x, hx, hcompatible⟩ := h.exists_compatible hambiguous
    obtain ⟨i, hi⟩ := (hcandidates x).2 hx
    exact ⟨(i, x), (hmem _).2 ⟨hi, hcompatible⟩⟩

theorem exists_destination_of_mayBe (h : v.Narrows w)
    (hcandidates : ∀ x, (∃ i, (i, x) ∈ candidates) ↔ x ∈ w.explode n)
    (hct : v.map.MayBe c t) :
    ∃ y ∈ ctx.destinations n v candidates, y.2.states.map.MayBe c t := by
  obtain ⟨⟨y, hy⟩, hall⟩ | ⟨hambiguous, hmem⟩ := ctx.destinations_cases h hcandidates
  · exact ⟨y, hy, (hall y hy).below c t hct⟩
  · obtain ⟨x, hx, hcompatible, hxt⟩ := h.exists_compatible_of_mayBe hambiguous hct
    obtain ⟨i, hi⟩ := (hcandidates x).2 hx
    exact ⟨(i, x), (hmem _).2 ⟨hi, hcompatible⟩, hxt⟩

/-- Nothing that flows to a node is lost by splitting the node. Of the nodes that its value is
split into, some are destinations of a value that narrows it. All of these share states with that,
and each state of each of its classes is in one of them. -/
theorem destinations_cover (h : v.Narrows w)
    (hcandidates : ∀ x, (∃ i, (i, x) ∈ candidates) ↔ x ∈ w.explode n) :
    ctx.destinations n v candidates ≠ [] ∧
    (∀ y ∈ ctx.destinations n v candidates, v.SharesStates y.2.states) ∧
    ∀ c t, v.map.MayBe c t →
      ∃ y ∈ ctx.destinations n v candidates, y.2.states.map.MayBe c t := by
  obtain ⟨y, hy⟩ := ctx.exists_destination h hcandidates
  refine ⟨List.ne_nil_of_mem hy, fun y hy => ?_,
    fun c t hct => ctx.exists_destination_of_mayBe h hcandidates hct⟩
  obtain ⟨-, hall⟩ | ⟨-, hmem⟩ := ctx.destinations_cases h hcandidates
  · exact isCompatibleWith_iff.1 (hall y hy).isCompatibleWith
  · exact isCompatibleWith_iff.1 ((hmem y).1 hy).2

/-- A context in which pointers start in the state `ptr.start`. -/
def pointing : StatesContext :=
  .of ⟨#[⟨none, .root, none, none⟩], #[], #[], []⟩
    (Machine.automaton ⟨"pointing", []⟩ ⟨"ptr", .anyPointer, true, none⟩) ⟨∅, [], [], [], []⟩

def pointer (name : String) : EquivClass := .singleton (.var ⟨name, none, .global, .pointer⟩)

/-- The pointers `p` and `q`, each in some states. -/
def pointers (p q : List String) : NodeStates :=
  ⟨Program.root, .ofList [(pointer "p", .ofList (p.map .named)),
    (pointer "q", .ofList (q.map .named))]⟩

/-- If both pointers may be in two states, a value in which `q` is in one of them goes only to the
node for that, which has both states of `p`. If `q` is in both as well, it goes to all four. -/
theorem destinations_cover_pointers :
    let known := ["ptr.start", "ptr.unknown"]
    let candidates := (SortedMap.enumerate ((pointers known known).explode 0)).entries
    (pointers known ["ptr.start"]).Narrows (pointers known known) ∧
    (pointing.destinations 0 (pointers known ["ptr.start"]) candidates).map (·.2.kind) =
      [.statewise (pointer "q") (.named "ptr.start")] ∧
    (∀ c t, (pointers known ["ptr.start"]).map.MayBe c t →
      ∃ y ∈ pointing.destinations 0 (pointers known ["ptr.start"]) candidates,
        y.2.states.map.MayBe c t) ∧
    (pointing.destinations 0 (pointers known known) candidates).length = 4 := by
  intro known candidates
  have hnarrows : (pointers known ["ptr.start"]).Narrows (pointers known known) := by
    decide +kernel
  have hcandidates : ∀ x, (∃ i, (i, x) ∈ candidates) ↔ x ∈ (pointers known known).explode 0 := by
    intro x
    simp only [candidates, SortedMap.mem_entries_iff, SortedMap.get?_enumerate]
    exact List.mem_iff_getElem?.symm
  obtain ⟨-, -, hcover⟩ := pointing.destinations_cover hnarrows hcandidates
  exact ⟨hnarrows, by decide +kernel, hcover, by decide +kernel⟩

end Destinations

end StatesContext

end Typestate
