import Typestate.Proofs.Exploded.Prune
import Typestate.Proofs.Fixpoint.Termination

/-!
# The facts pass comes to an end

Along a loop ever new facts may be derived, so that the facts of a program are no finite set.
But at a node that has facts there are never others later than those it has: a meet only drops
facts. So each node's facts change no more often than the first that arrive there are many.
-/
namespace Typestate

namespace Facts

variable {s t : Facts}

theorem size_meet_lt (h : s.meet t ≠ s) : (s.meet t).size < s.size := by
  have hdropped : ∃ f, f ∈ s ∧ f ∉ t := by
    by_contra hnone
    push Not at hnone
    exact h (Facts.ext fun f => by rw [mem_meet]; exact and_iff_left_of_imp (hnone f))
  obtain ⟨f, hs, ht⟩ := hdropped
  exact List.length_filter_lt_length_iff_exists.2 ⟨f, hs, by simpa using ht⟩

theorem descends {d : Dataflow Facts NodeId} {nodes : Finset NodeId} (hmeet : d.meet = Facts.meet)
    (hnodes : ∀ n, ∀ e ∈ d.successors n, e.2 ∈ nodes) :
    d.Descends (fun _ _ => True) Facts.size nodes where
  seed _ _ := trivial
  transfer _ _ _ := trivial
  meet _ _ := trivial
  successors := hnodes
  lower _ _ h := by
    rw [hmeet] at h ⊢
    exact size_meet_lt h

end Facts

def Program.targets (p : Program) : Finset NodeId := (p.edges.toList.map (·.target)).toFinset

theorem Program.mem_targets {p : Program} {n : NodeId} {e : EdgeId × NodeId}
    (he : e ∈ p.successors n) : e.2 ∈ p.targets := by
  obtain ⟨edge, hedge, -, htarget⟩ := mem_successors.1 he
  rw [targets, List.mem_toFinset, ← htarget]
  exact List.mem_map_of_mem (Array.mem_toList_iff.2 (Array.mem_of_getElem? hedge))

def ExplodedGraph.targets (g : ExplodedGraph) : Finset NodeId :=
  (g.edges.entries.map (·.2.target)).toFinset

theorem ExplodedGraph.mem_targets {g : ExplodedGraph} {n : NodeId} {e : EdgeId × NodeId}
    (he : e ∈ g.successors n) : e.2 ∈ g.targets := by
  obtain ⟨x, hx, -, htarget⟩ := mem_successors.1 he
  rw [targets, List.mem_toFinset, ← htarget]
  exact List.mem_map_of_mem (SortedMap.mem_entries_iff.2 hx)

/-- The facts pass over a program, and over any exploded graph of one, needs some number of
visits. With a limit that allows as many it has a solution, and it gives up only if the limit
is lower. -/
theorem Program.factsProblem_terminates (p : Program) :
    (∃ needed facts, ∀ pass limit, p.factsProblem.solve pass limit =
      if needed ≤ limit then .ok facts else .error (.notConverged pass limit)) ∧
    ∀ g : ExplodedGraph, ∃ needed facts, ∀ pass limit, (g.factsProblem p).solve pass limit =
      if needed ≤ limit then .ok facts else .error (.notConverged pass limit) := by
  have hprogram : ∀ n, ∀ e ∈ p.factsProblem.successors n, e.2 ∈ p.targets :=
    fun _ _ he => mem_targets he
  have hexploded : ∀ g : ExplodedGraph, ∀ n, ∀ e ∈ (g.factsProblem p).successors n,
      e.2 ∈ g.targets := fun _ _ _ he => ExplodedGraph.mem_targets he
  exact ⟨(Facts.descends rfl hprogram).exists_limit,
    fun g => (Facts.descends rfl (hexploded g)).exists_limit⟩

end Typestate
