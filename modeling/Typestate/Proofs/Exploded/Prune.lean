import Typestate.Exploded.Prune
import Typestate.Proofs.Exploded.Routes
import Typestate.Proofs.Facts.Soundness

/-!
# Pruning keeps concrete runs

Facts along an exploded graph hold in every concrete run that its edges allow. So each node that
a run comes to has possible facts and is reached from the entry, and no round of pruning
removes it.
-/
namespace Typestate

namespace ExplodedGraph

variable {g : ExplodedGraph} {p : Program} {i : NodeId} {v : Valuation}

/-- A run of the program along the edges of an exploded graph, to a node of the graph and a
valuation. -/
inductive Runs (g : ExplodedGraph) (p : Program) : NodeId → Valuation → Prop
  | start (v : Valuation) : Runs g p g.entry v
  | step {k x edge v v'} : g.edges.get? k = some x → Runs g p x.source v →
      p.edges[x.edge]? = some edge → p.Takes edge v v' → Runs g p x.target v'

theorem Closed.contains_of_runs (hg : g.Closed) (h : g.Runs p i v) :
    g.nodes.contains i = true := by
  cases h with
  | start v => exact hg.entry
  | step hx _ _ _ => exact hg.target hx

theorem contains_routes_of_runs (hg : g.Closed) (h : g.Runs p i v) :
    g.routes.contains i = true := by
  obtain ⟨hentry, hclosed⟩ := routes_closed hg
  induction h with
  | start v => exact hentry
  | step hx _ _ _ ih => exact hclosed hx ih

theorem rises_factsProblem (g : ExplodedGraph) (p : Program) :
    (g.factsProblem p).Rises fun s t : Facts => ∀ f ∈ t, f ∈ s where
  refl := (Facts.rises_factsProblem p).refl
  trans := (Facts.rises_factsProblem p).trans
  meet_left := (Facts.rises_factsProblem p).meet_left
  meet_right := (Facts.rises_factsProblem p).meet_right

theorem satisfies_of_runs (hord : p.LabelsOrdered) {pass : String} {limit : Nat}
    {sol : FactsSolution} (hs : (g.factsProblem p).solve pass limit = .ok sol)
    (hr : g.Runs p i v) : ∃ s, sol.value i = some s ∧ v.Satisfies s := by
  have hrise := g.rises_factsProblem p
  induction hr with
  | start v =>
    obtain ⟨s, hs, hsub⟩ := hrise.reaches_seed hs (n := g.entry) (by simp [factsProblem])
    exact ⟨s, hs, Valuation.satisfies_empty.mono hsub⟩
  | @step k x edge v v' hx _ he ht ih =>
    obtain ⟨s, hs', hv⟩ := ih
    obtain ⟨t, hflow, hvt⟩ := Program.factsFlow_of_takes hord he ht hv
    have htransfer : ((g.factsProblem p).transfer s k).1 = some t := by
      simp only [factsProblem, hx]
      exact hflow
    obtain ⟨u, hu, hsub⟩ := hrise.passedOn_solve hs x.source s hs' (k, x.target)
      (mem_successors.2 ⟨x, hx, rfl, rfl⟩) t htransfer
    exact ⟨u, hu, hvt.mono hsub⟩

theorem isSupported_of_runs (hord : p.LabelsOrdered) {pass : String} {limit : Nat}
    {facts : FactsSolution} (hs : (g.factsProblem p).solve pass limit = .ok facts)
    (hr : g.Runs p i v) : g.isSupported facts i = true := by
  obtain ⟨s, hvalue, hsat⟩ := satisfies_of_runs hord hs hr
  simp [isSupported, hvalue, Facts.isPossible_of_satisfies hsat]

section Keep

variable {test : NodeId → Bool}

theorem get?_nodes_keep {x : ExplodedNode} : (g.keep test).nodes.get? i = some x ↔
    g.nodes.get? i = some x ∧ test i = true := SortedMap.get?_filter

theorem get?_edges_keep {k : EdgeId} {x : ExplodedEdge} :
    (g.keep test).edges.get? k = some x ↔
      g.edges.get? k = some x ∧ test x.source = true ∧ test x.target = true := by
  rw [← Bool.and_eq_true]
  exact SortedMap.get?_filter

theorem contains_keep (hi : g.nodes.contains i = true) (ht : test i = true) :
    (g.keep test).nodes.contains i = true := by
  obtain ⟨x, hx⟩ := Option.isSome_iff_exists.1 hi
  exact Option.isSome_iff_exists.2 ⟨x, get?_nodes_keep.2 ⟨hx, ht⟩⟩

theorem Closed.keep (hg : g.Closed) (hentry : test g.entry = true) : (g.keep test).Closed where
  entry := contains_keep hg.entry hentry
  source hx := by
    obtain ⟨hx, hsource, -⟩ := get?_edges_keep.1 hx
    exact contains_keep (hg.source hx) hsource
  target hx := by
    obtain ⟨hx, -, htarget⟩ := get?_edges_keep.1 hx
    exact contains_keep (hg.target hx) htarget

theorem Runs.keep (htest : ∀ i v, g.Runs p i v → test i = true) (h : g.Runs p i v) :
    (g.keep test).Runs p i v := by
  induction h with
  | start v => exact .start v
  | step hx hr he ht ih =>
    refine .step (get?_edges_keep.2 ⟨hx, ?_, ?_⟩) ih he ht
    · exact htest _ _ hr
    · exact htest _ _ (.step hx hr he ht)

end Keep

/-- A graph that lacks some nodes of another but none that a run comes to. -/
structure Retains (g : ExplodedGraph) (p : Program) (left : ExplodedGraph) : Prop where
  closed : left.Closed
  runs : ∀ {i v}, g.Runs p i v → left.Runs p i v
  nodes : ∀ {i x}, left.nodes.get? i = some x → g.nodes.get? i = some x

theorem Retains.refl (hg : g.Closed) : g.Retains p g :=
  ⟨hg, fun h => h, fun h => h⟩

theorem Retains.trans {left last : ExplodedGraph} (h₁ : g.Retains p left)
    (h₂ : left.Retains p last) : g.Retains p last :=
  ⟨h₂.closed, fun h => h₂.runs (h₁.runs h), fun h => h₁.nodes (h₂.nodes h)⟩

theorem retains_keep {test : NodeId → Bool} (hg : g.Closed)
    (htest : ∀ i v, g.Runs p i v → test i = true) : g.Retains p (g.keep test) where
  closed := hg.keep (htest g.entry (.table []) (.start _))
  runs := Runs.keep htest
  nodes hx := (get?_nodes_keep.1 hx).1

/-- A round of pruning retains all runs. -/
theorem retains_pruneBy (hord : p.LabelsOrdered) (hg : g.Closed) {pass : String} {limit : Nat}
    {facts : FactsSolution} (hs : (g.factsProblem p).solve pass limit = .ok facts) :
    g.Retains p (g.pruneBy facts).1 := by
  have hfeasible : g.Retains p (g.keep (g.isSupported facts)) :=
    retains_keep hg fun _ _ hr => isSupported_of_runs hord hs hr
  exact hfeasible.trans
    (retains_keep hfeasible.closed fun _ _ hr => contains_routes_of_runs hfeasible.closed hr)

theorem closed_pruneBy (hg : g.Closed) (facts : FactsSolution) : (g.pruneBy facts).1.Closed := by
  have hfeasible : (g.keep (g.isSupported facts)).Closed := hg.keep (by simp [isSupported])
  exact hfeasible.keep (routes_closed hfeasible).1

theorem get?_nodes_pruneBy {facts : FactsSolution} {x : ExplodedNode}
    (h : (g.pruneBy facts).1.nodes.get? i = some x) : g.nodes.get? i = some x :=
  (get?_nodes_keep.1 (get?_nodes_keep.1 h).1).1

/-- What every round of pruning preserves holds of what pruning leaves. -/
theorem prune_induction {P : ExplodedGraph → Prop} {limit rounds : Nat} {left : ExplodedGraph}
    {stats : PruneStats} (hround : ∀ {g facts}, P g →
      (g.factsProblem p).solve "exploded-facts" limit = .ok facts → P (g.pruneBy facts).1)
    (hg : P g) (h : g.prune p limit rounds = .ok (left, stats)) : P left := by
  induction rounds generalizing g left stats with
  | zero =>
    cases h
    exact hg
  | succ rounds ih =>
    unfold prune at h
    cases hs : (g.factsProblem p).solve "exploded-facts" limit with
    | error fault =>
      rw [hs] at h
      cases h
    | ok facts =>
      rw [hs] at h
      simp only [bind, Except.bind] at h
      split at h
      · cases h
        exact hround hg hs
      · split at h
        · cases h
        · rename_i rest hrest
          cases h
          exact ih (hround hg hs) hrest

/-- Pruning retains all runs. -/
theorem retains_prune (hord : p.LabelsOrdered) {limit rounds : Nat} {left : ExplodedGraph}
    {stats : PruneStats} (hg : g.Closed) (h : g.prune p limit rounds = .ok (left, stats)) :
    g.Retains p left :=
  prune_induction (P := g.Retains p)
    (fun hleft hs => hleft.trans (retains_pruneBy hord hleft.closed hs)) (.refl hg) h

theorem closed_prune {limit rounds : Nat} {left : ExplodedGraph} {stats : PruneStats}
    (hg : g.Closed) (h : g.prune p limit rounds = .ok (left, stats)) :
    left.Closed ∧ ∀ {i x}, left.nodes.get? i = some x → g.nodes.get? i = some x :=
  prune_induction
    (P := fun left => left.Closed ∧ ∀ {i x}, left.nodes.get? i = some x → g.nodes.get? i = some x)
    (fun hleft _ => ⟨closed_pruneBy hleft.1 _, fun hx => hleft.2 (get?_nodes_pruneBy hx)⟩)
    ⟨hg, fun hx => hx⟩ h

end ExplodedGraph

end Typestate
