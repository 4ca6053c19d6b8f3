import Typestate.Proofs.Exploded.Build

/-!
# Replays in an exploded graph

The nodes of an exploded graph are the exploded nodes of the solution, and its edges lead to
all destinations of what the program's edges carry. Wherever a replay comes, the run that it
replays comes along the exploded graph, for each state of each class.
-/
namespace Typestate

namespace StatesContext

open NodeStates

variable {ctx : StatesContext} {states : NodeId → Option NodeStates} {limit : Nat}
  {g : ExplodedGraph} {incidents : List Incident} {n : NodeId} {x : ExplodedNode}

theorem mem_explodedNodes : x ∈ (ctx.explodedNodes states).flatten ↔
    ∃ n v, n < ctx.program.nodes.size ∧ states n = some v ∧ x ∈ v.explode n := by
  unfold explodedNodes
  rw [List.mem_flatten]
  constructor
  · rintro ⟨l, hl, hx⟩
    obtain ⟨n, hn, rfl⟩ := List.mem_map.1 hl
    split at hx
    · rename_i v hv
      exact ⟨n, v, List.mem_range.1 hn, hv, hx⟩
    · cases hx
  · rintro ⟨n, v, hn, hv, hx⟩
    refine ⟨v.explode n, List.mem_map.2 ⟨n, List.mem_range.2 hn, ?_⟩, hx⟩
    rw [hv]

theorem explode_eq_built (h : ctx.explode states limit = .ok (.built g, incidents)) :
    g.nodes = .enumerate (ctx.explodedNodes states).flatten ∧
      (∃ x, g.nodes.get? g.entry = some x ∧ x.node = Program.root) ∧
      g.edges = .enumerate ((ctx.allExplodedEdges g.nodes).flatMap (·.1)) := by
  unfold explode at h
  dsimp only at h
  split at h
  · cases h
  · split at h
    · cases h
    · rename_i entry x hentry
      cases h
      refine ⟨rfl, ⟨x, SortedMap.mem_entries_iff.1 (List.mem_of_find?_eq_some hentry), ?_⟩, rfl⟩
      simpa using List.find?_some hentry

theorem get?_nodes_explode (h : ctx.explode states limit = .ok (.built g, incidents)) :
    (∃ i, g.nodes.get? i = some x) ↔
      ∃ n v, n < ctx.program.nodes.size ∧ states n = some v ∧ x ∈ v.explode n := by
  rw [(explode_eq_built h).1, ← mem_explodedNodes]
  simp only [SortedMap.get?_enumerate]
  exact List.mem_iff_getElem?.symm

/-- An exploded edge stands for one of the program and leads to a destination of what that
carries. -/
theorem get?_edges_explode (h : ctx.explode states limit = .ok (.built g, incidents))
    {y : ExplodedEdge} : (∃ k, g.edges.get? k = some y) ↔
      ∃ i x e target v d, g.nodes.get? i = some x ∧
        (e, target) ∈ ctx.program.successors x.node ∧
        (ctx.transfer x.states e).result = some v ∧
        d ∈ ctx.destinations target v (g.nodes.entries.filter (·.2.node = target)) ∧
        y = ⟨i, d.1, e, (ctx.transfer x.states e).found⟩ := by
  rw [(explode_eq_built h).2.2]
  simp only [SortedMap.get?_enumerate]
  rw [← List.mem_iff_getElem?, List.mem_flatMap]
  constructor
  · rintro ⟨l, hl, hy⟩
    obtain ⟨⟨i, x⟩, hix, hl⟩ := List.mem_flatMap.1 hl
    obtain ⟨⟨e, target⟩, he, rfl⟩ := List.mem_map.1 hl
    unfold explodedEdges at hy
    dsimp only at hy
    split at hy
    · cases hy
    · rename_i v hv
      obtain ⟨d, hd, rfl⟩ := List.mem_map.1 hy
      exact ⟨i, x, e, target, v, d, SortedMap.mem_entries_iff.1 hix, he, hv, hd, rfl⟩
  · rintro ⟨i, x, e, target, v, d, hix, he, hv, hd, rfl⟩
    refine ⟨ctx.explodedEdges g.nodes i x (e, target), ?_, ?_⟩
    · exact List.mem_flatMap.2 ⟨(i, x), SortedMap.mem_entries_iff.2 hix,
        List.mem_map.2 ⟨(e, target), he, rfl⟩⟩
    · unfold explodedEdges
      dsimp only
      rw [hv]
      exact List.mem_map.2 ⟨d, hd, rfl⟩

theorem closed_explode (h : ctx.explode states limit = .ok (.built g, incidents)) :
    g.Closed where
  entry := by
    obtain ⟨x, hx, -⟩ := (explode_eq_built h).2.1
    exact Option.isSome_iff_exists.2 ⟨x, hx⟩
  source {k y} hy := by
    obtain ⟨i, x, e, target, v, d, hx, -, -, -, rfl⟩ := (get?_edges_explode h).1 ⟨k, hy⟩
    exact Option.isSome_iff_exists.2 ⟨x, hx⟩
  target {k y} hy := by
    obtain ⟨i, x, e, target, v, d, -, -, -, hd, rfl⟩ := (get?_edges_explode h).1 ⟨k, hy⟩
    have hd := (List.mem_filter.1 (mem_of_mem_destinations hd)).1
    exact Option.isSome_iff_exists.2 ⟨d.2, SortedMap.mem_entries_iff.1 hd⟩

section Solution

variable {pass : String} {visits : Nat} {sol : StatesSolution}

theorem exists_value_of_get?_nodes (h : ctx.explode sol.value limit = .ok (.built g, incidents))
    {i : NodeId} (hx : g.nodes.get? i = some x) :
    ∃ v, sol.value x.node = some v ∧ x ∈ v.explode x.node := by
  obtain ⟨n, v, -, hv, hx⟩ := (get?_nodes_explode h).1 ⟨i, hx⟩
  obtain rfl := node_of_mem_explode hx
  exact ⟨v, hv, hx⟩

theorem fits_of_get?_nodes (hreg : ctx.Regular)
    (hs : ctx.problem.solve pass visits = .ok sol)
    (h : ctx.explode sol.value limit = .ok (.built g, incidents)) {i : NodeId}
    (hx : g.nodes.get? i = some x) : ctx.Fits x.node x.states := by
  obtain ⟨v, hv, hmem⟩ := exists_value_of_get?_nodes h hx
  exact (fits_value hreg hs hv).of_mem_explode hmem

theorem candidates_explode (h : ctx.explode sol.value limit = .ok (.built g, incidents))
    {v : NodeStates} (hn : n < ctx.program.nodes.size) (hv : sol.value n = some v)
    (x : ExplodedNode) :
    (∃ i, (i, x) ∈ g.nodes.entries.filter (·.2.node = n)) ↔ x ∈ v.explode n := by
  constructor
  · rintro ⟨i, hfilter⟩
    obtain ⟨hi, hnode⟩ := List.mem_filter.1 hfilter
    obtain rfl : x.node = n := of_decide_eq_true hnode
    obtain ⟨v', hv', hx⟩ := exists_value_of_get?_nodes h (SortedMap.mem_entries_iff.1 hi)
    rw [hv] at hv'
    exact Option.some.inj hv' ▸ hx
  · intro hx
    obtain ⟨i, hi⟩ := (get?_nodes_explode h).2 ⟨n, v, hn, hv, hx⟩
    refine ⟨i, List.mem_filter.2 ⟨SortedMap.mem_entries_iff.2 hi, ?_⟩⟩
    exact decide_eq_true (node_of_mem_explode hx)

/-- No edge enters the root, so each class has one state there and the entry is not split. -/
theorem entry_explode (hreg : ctx.Regular) (hs : ctx.problem.solve pass visits = .ok sol)
    (h : ctx.explode sol.value limit = .ok (.built g, incidents)) :
    ∃ x, g.nodes.get? g.entry = some x ∧ x.node = Program.root ∧
      x.states = ctx.initial Program.root := by
  obtain ⟨x, hx, hroot⟩ := (explode_eq_built h).2.1
  obtain ⟨s, hsol, hmem⟩ := exists_value_of_get?_nodes h hx
  rw [hroot, value_root hreg hs] at hsol
  obtain rfl := Option.some.inj hsol
  have hunambiguous : (ctx.initial Program.root).isUnambiguous = true := by
    apply isUnambiguous_iff.2
    intro c s hcs
    unfold initial at hcs
    rw [SortedMap.get?_tabulate] at hcs
    split at hcs
    · exact Option.some.inj hcs ▸ Nat.le_refl 1
    · cases hcs
  rw [explode_of_isUnambiguous hunambiguous, List.mem_singleton] at hmem
  exact ⟨x, hx, hroot, by rw [hmem]⟩

/-- A run at an exploded node follows an edge of the program to an exploded node, and for each
state of what the edge carries to one that has the state. -/
theorem exists_step (hreg : ctx.Regular) (hs : ctx.problem.solve pass visits = .ok sol)
    (h : ctx.explode sol.value limit = .ok (.built g, incidents)) {i : NodeId}
    (hx : g.nodes.get? i = some x) {e : EdgeId} {edge : Edge}
    (he : ctx.program.edges[e]? = some edge) (hnode : x.node = edge.source)
    (hsize : edge.target < ctx.program.nodes.size) {u : NodeStates}
    (hu : (ctx.transfer x.states e).result = some u) {v v' : Valuation}
    (hr : g.Runs ctx.program i v) (ht : ctx.program.Takes edge v v') :
    (∃ j y, g.nodes.get? j = some y ∧ y.node = edge.target ∧ g.Runs ctx.program j v') ∧
      ∀ c t, u.map.MayBe c t → ∃ j y, g.nodes.get? j = some y ∧ y.node = edge.target ∧
        y.states.map.MayBe c t ∧ g.Runs ctx.program j v' := by
  obtain ⟨s, hsol, hmem⟩ := exists_value_of_get?_nodes h hx
  rw [hnode] at hsol hmem
  have hsfits := fits_value hreg hs hsol
  have hxfits := hsfits.of_mem_explode hmem
  obtain ⟨T, hT, hresult⟩ := exists_threads hreg he (isFeasible_of_result hu)
  obtain rfl : T x.states = u := Option.some.inj ((hresult _ hxfits).symm.trans hu)
  obtain ⟨w, hw, hbelow⟩ := exists_value_of_transfer hs he hsol (hresult _ hsfits)
  have huw : (T x.states).Below w := fun c t hct =>
    hbelow c t (hT.below hxfits hsfits (below_of_mem_explode hmem).1 c t hct)
  have hufits := hT.fits hxfits
  have hcandidates := candidates_explode h hsize hw
  have follow : ∀ d ∈ ctx.destinations edge.target (T x.states)
      (g.nodes.entries.filter (·.2.node = edge.target)),
      g.nodes.get? d.1 = some d.2 ∧ d.2.node = edge.target ∧ g.Runs ctx.program d.1 v' := by
    intro d hd
    obtain ⟨hdnode, hdtarget⟩ := List.mem_filter.1 (mem_of_mem_destinations hd)
    refine ⟨SortedMap.mem_entries_iff.1 hdnode, of_decide_eq_true hdtarget, ?_⟩
    obtain ⟨k, hk⟩ := (get?_edges_explode h).2 ⟨i, x, e, edge.target, T x.states, d, hx,
      Program.mem_successors.2 ⟨edge, he, hnode.symm, rfl⟩, hu, hd, rfl⟩
    exact .step hk hr he ht
  constructor
  · obtain ⟨d, hd⟩ := ctx.exists_destination (hufits.narrows huw) hcandidates
    obtain ⟨hnode, htarget, hruns⟩ := follow d hd
    exact ⟨d.1, d.2, hnode, htarget, hruns⟩
  · intro c t hct
    obtain ⟨d, hd, hdt⟩ := ctx.exists_destination_of_mayBe (hufits.narrows huw) hcandidates hct
    obtain ⟨hnode, htarget, hruns⟩ := follow d hd
    exact ⟨d.1, d.2, hnode, htarget, hdt, hruns⟩

/-- Wherever a replay comes, its run comes along the exploded graph, and for each state that a
class has there to an exploded node that has the state. -/
theorem exists_runs_of_replays (hreg : ctx.Regular)
    (hs : ctx.problem.solve pass visits = .ok sol)
    (h : ctx.explode sol.value limit = .ok (.built g, incidents))
    (htargets : ∀ edge ∈ ctx.program.edges, edge.target < ctx.program.nodes.size)
    {path : List EdgeId} {v : Valuation} {w : NodeStates} (hr : ctx.Replays path n v w) :
    (∃ i x, g.nodes.get? i = some x ∧ x.node = n ∧ g.Runs ctx.program i v) ∧
      ∀ c t, w.map.MayBe c t → ∃ i x, g.nodes.get? i = some x ∧ x.node = n ∧
        x.states.map.MayBe c t ∧ g.Runs ctx.program i v := by
  obtain ⟨hr, hstates⟩ := hr
  induction hr generalizing w with
  | start v =>
    obtain rfl := Option.some.inj hstates
    obtain ⟨x, hx, hroot, hstates⟩ := entry_explode hreg hs h
    have hruns : g.Runs ctx.program g.entry v := .start v
    exact ⟨⟨_, x, hx, hroot, hruns⟩, fun c t hct => ⟨_, x, hx, hroot, hstates ▸ hct, hruns⟩⟩
  | @step path e edge v v' hprev he ht ih =>
    obtain ⟨u, hprevu, hu⟩ := Option.bind_eq_some_iff.1 hstates
    obtain ⟨⟨i, x, hx, hnode, hruns⟩, hthreads⟩ := ih hprevu
    have hsize := htargets edge (Array.mem_of_getElem? he)
    obtain ⟨T, hT, hresult⟩ := exists_threads hreg he (isFeasible_of_result hu)
    have hfits := Replays.fits hreg ⟨hprev, hprevu⟩
    have hall : ∀ {i x}, g.nodes.get? i = some x → x.node = edge.source →
        ctx.Fits edge.source x.states := by
      intro i x hx hnode
      exact hnode ▸ fits_of_get?_nodes hreg hs h hx
    obtain rfl : T u = w := Option.some.inj ((hresult u hfits).symm.trans hu)
    have hnext := exists_step hreg hs h hx he hnode hsize (hresult _ (hall hx hnode)) hruns ht
    refine ⟨hnext.1, fun c t hct => ?_⟩
    rcases hT.stems hfits hct with heach | ⟨c₀, t₀, hct₀, heach⟩
    · exact hnext.2 c t (heach _ (hall hx hnode))
    · -- by induction there is a node for the state that this one stems from
      obtain ⟨j, y, hy, hynode, hyt, hyruns⟩ := hthreads c₀ t₀ hct₀
      have hyfits := hall hy hynode
      exact (exists_step hreg hs h hy he hynode hsize (hresult _ hyfits) hyruns ht).2 c t
        (heach _ hyfits hyt)

end Solution

end StatesContext

end Typestate
