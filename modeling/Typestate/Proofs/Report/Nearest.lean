import Typestate.Proofs.Exploded.Tree
import Typestate.Proofs.Report.Target

/-!
# Paths and targets are nearest

The search for routes gives a node that edges lead to the least number of edges as its distance,
and a path of just as many. So the witness of a finding is as short as its target allows, and the
target is at the least distance among the nodes that could be chosen: those that stand for the
finding or, if none of these is reached, those at which its state is one of several.
-/
namespace Typestate

namespace Routes

variable {r : Routes} {l : List NodeId} {n k : NodeId} {d : Nat}

/-- Whether a node is at a distance that no node of a list is below, and comes first among those
that are at it. -/
structure IsFirst (r : Routes) (l : List NodeId) (n : NodeId) (d : Nat) : Prop where
  distance : r.distance n = some d
  least : ∀ m ∈ l, ∀ c, r.distance m = some c → d < c ∨ d = c ∧ n ≤ m

theorem IsFirst.concat (h : r.IsFirst l n d)
    (hk : ∀ c, r.distance k = some c → d < c ∨ d = c ∧ n ≤ k) : r.IsFirst (l ++ [k]) n d := by
  refine ⟨h.distance, fun m hm c hc => ?_⟩
  rcases List.mem_append.1 hm with hm | hm
  · exact h.least m hm c hc
  · obtain rfl := List.mem_singleton.1 hm
    exact hk c hc

theorem isFirst_concat_self (hk : r.distance k = some d)
    (h : ∀ m ∈ l, ∀ c, r.distance m = some c → d < c) : r.IsFirst (l ++ [k]) k d := by
  refine ⟨hk, fun m hm c hc => ?_⟩
  rcases List.mem_append.1 hm with hm | hm
  · exact .inl (h m hm c hc)
  · obtain rfl := List.mem_singleton.1 hm
    exact .inr ⟨Option.some.inj (hk.symm.trans hc), le_rfl⟩

theorem closest?_concat : r.closest? (l ++ [n]) = r.nearer (r.closest? l) n := by
  rw [closest?, List.foldl_append, List.foldl_cons, List.foldl_nil, closest?]

theorem isFirst_closest? (hl : l.Pairwise (· < ·)) (h : r.closest? l = some n) :
    ∃ d, r.IsFirst l n d := by
  induction l using List.reverseRecOn generalizing n with
  | nil => cases h
  | append_singleton l k ih =>
    obtain ⟨hl, -, hlast⟩ := List.pairwise_append.1 hl
    rw [closest?_concat] at h
    cases hbest : r.closest? l with
    | none =>
      obtain ⟨rfl, hk⟩ := (nearer_eq_some h).resolve_left (by simp [hbest])
      obtain ⟨d, hd⟩ := exists_distance hk
      refine ⟨d, isFirst_concat_self hd fun m hm c hc => ?_⟩
      obtain ⟨b, hb⟩ := exists_closest? hm (contains_of_distance hc)
      rw [hbest] at hb
      cases hb
    | some b =>
      obtain ⟨d, hfirst⟩ := ih hl hbest
      rw [hbest, nearer, Option.bind_some, hfirst.distance] at h
      cases hk : r.distance k with
      | none =>
        rw [hk] at h
        obtain rfl : b = n := Option.some.inj h
        exact ⟨d, hfirst.concat (by simp [hk])⟩
      | some d' =>
        rw [hk] at h
        dsimp only at h
        split at h
        · rename_i hlt
          obtain rfl : k = n := Option.some.inj h
          refine ⟨d', isFirst_concat_self hk fun m hm c hc => ?_⟩
          have := hfirst.least m hm c hc
          omega
        · rename_i hge
          obtain rfl : b = n := Option.some.inj h
          have hbk : b < k := hlast b (closest?_spec hbest).1 k (by simp)
          refine ⟨d, hfirst.concat fun c hc => ?_⟩
          obtain rfl := Option.some.inj (hk.symm.trans hc)
          rcases Nat.lt_or_eq_of_le (Nat.le_of_not_lt hge) with hlt | heq
          · exact .inl hlt
          · exact .inr ⟨heq, Nat.le_of_lt hbk⟩

end Routes

namespace ExplodedGraph

variable {g : ExplodedGraph} {f : Finding} {test : ExplodedNode → Bool} {i j n : NodeId}

/-- A node for the node of a finding that is reached and passes a test. -/
def Candidate (g : ExplodedGraph) (f : Finding) (test : ExplodedNode → Bool) (i : NodeId) : Prop :=
  ∃ x, g.ReachedAt f.node i x ∧ test x = true

/-- A candidate at the least distance, the first of those. -/
structure Nearest (g : ExplodedGraph) (f : Finding) (test : ExplodedNode → Bool) (j : NodeId) :
    Prop where
  candidate : g.Candidate f test j
  least : ∃ d, g.tree.distance j = some d ∧
    ∀ i c, g.Candidate f test i → g.tree.distance i = some c → d < c ∨ d = c ∧ j ≤ i

/-- The nearest node that stands for a finding or, if none does, the nearest at which its state is
one of several. -/
def IsTarget (g : ExplodedGraph) (f : Finding) (j : NodeId) : Prop :=
  g.Nearest f (·.standsFor f) j ∨
    (∀ i, ¬ g.Candidate f (·.standsFor f) i) ∧ g.Nearest f (·.holds f) j

theorem Nearest.unique (hi : g.Nearest f test i) (hj : g.Nearest f test j) : i = j := by
  obtain ⟨d, hd, hleast⟩ := hi.least
  obtain ⟨d', hd', hleast'⟩ := hj.least
  rcases hleast j d' hj.candidate hd' with hlt | ⟨heq, hij⟩
  · rcases hleast' i d hi.candidate hd with hlt' | ⟨heq, -⟩ <;> omega
  · rcases hleast' i d hi.candidate hd with hlt | ⟨-, hji⟩
    · omega
    · exact Nat.le_antisymm hij hji

theorem mem_tested : i ∈ ((g.nodesFor n).filter fun (_, x) => test x).map (·.1) ↔
    ∃ x, g.nodes.get? i = some x ∧ x.node = n ∧ test x = true := by
  simp only [List.mem_map, List.mem_filter]
  constructor
  · rintro ⟨⟨i, x⟩, ⟨hx, htest⟩, rfl⟩
    obtain ⟨hx, hnode⟩ := mem_nodesFor.1 hx
    exact ⟨x, hx, hnode, htest⟩
  · rintro ⟨x, hx, hnode, htest⟩
    exact ⟨(i, x), ⟨mem_nodesFor.2 ⟨hx, hnode⟩, htest⟩, rfl⟩

theorem pairwise_tested :
    (((g.nodesFor n).filter fun (_, x) => test x).map (·.1)).Pairwise (· < ·) := by
  refine List.pairwise_map.2 ?_
  have hnodes := (g.nodes.ascending.sublist List.filter_sublist).sublist
    (List.filter_sublist (p := fun (_, x) => test x) (l := g.nodesFor n))
  exact hnodes.imp fun h => Nat.compare_eq_lt.1 h

theorem closest?_eq_some_iff (hg : g.Closed) :
    g.closest? g.routes f test = some j ↔ g.Nearest f test j := by
  have hnearest : ∀ {j}, g.closest? g.routes f test = some j → g.Nearest f test j := by
    intro j h
    obtain ⟨d, hfirst⟩ := Routes.isFirst_closest? pairwise_tested h
    refine ⟨reachedAt_of_closest? h, d, (distance_tree hg j).trans hfirst.distance, ?_⟩
    rintro i c ⟨x, hx, htest⟩ hc
    exact hfirst.least i (mem_tested.2 ⟨x, hx.live, hx.node, htest⟩) c
      ((distance_tree hg i).symm.trans hc)
  refine ⟨hnearest, fun h => ?_⟩
  obtain ⟨x, hx, htest⟩ := h.candidate
  obtain ⟨k, hk⟩ := exists_closest? test hx.live hx.node ((contains_routes_iff hg).2 hx.reached)
    htest
  rw [hk, (hnearest hk).unique h]

theorem closest?_eq_none_iff (hg : g.Closed) :
    g.closest? g.routes f test = none ↔ ∀ i, ¬ g.Candidate f test i := by
  constructor
  · rintro h i ⟨x, hx, htest⟩
    obtain ⟨k, hk⟩ := exists_closest? test hx.live hx.node ((contains_routes_iff hg).2 hx.reached)
      htest
    rw [h] at hk
    cases hk
  · intro h
    refine Option.eq_none_iff_forall_ne_some.2 fun j hj => h j (reachedAt_of_closest? hj)

theorem target?_eq_some_iff (hg : g.Closed) :
    g.target? g.routes f = some j ↔ g.IsTarget f j := by
  rw [target?, Option.or_eq_some_iff, closest?_eq_some_iff hg, closest?_eq_none_iff hg,
    closest?_eq_some_iff hg, IsTarget]

/-- A node has a distance just if edges lead to it from the entry, and its distance is the least
number of such edges. Its path is a list of just as many edges that lead, one after another, from
the entry to the node. In a closed graph, as all are that are built or pruned, the routes that a
report is made from have the same distances and paths. The target of a finding is there the nearest
of the nodes that are reached and stand for it or, if there is none, of those at which its state is
one of several; there is one unless there are neither. -/
theorem paths_and_targets_nearest (g : ExplodedGraph) :
    (∀ n, (∃ d, g.tree.distance n = some d) ↔ ∃ path, g.Joins g.entry path n) ∧
    (∀ n d, g.tree.distance n = some d →
      IsLeast {l | ∃ path, g.Joins g.entry path n ∧ path.length = l} d ∧
      ∃ path, g.tree.path n = some path ∧ g.Joins g.entry path n ∧ path.length = d) ∧
    (g.Closed →
      (∀ n, g.routes.distance n = g.tree.distance n ∧ g.routes.path n = g.tree.path n) ∧
      ∀ f, (∀ j, g.target? g.routes f = some j ↔ g.IsTarget f j) ∧
        ((∃ j, g.target? g.routes f = some j) ↔
          ∃ i, g.Candidate f (·.standsFor f) i ∨ g.Candidate f (·.holds f) i)) := by
  refine ⟨fun n => ⟨?_, ?_⟩, fun n d hd => ⟨distance_tree_iff.1 hd, SearchTree.exists_path hd⟩,
    fun hg => ⟨fun n => ⟨(distance_tree hg n).symm, (path_tree hg n).symm⟩,
      fun f => ⟨fun j => target?_eq_some_iff hg, ?_⟩⟩⟩
  · rintro ⟨d, hd⟩
    obtain ⟨path, -, hjoins, -⟩ := SearchTree.exists_path hd
    exact ⟨path, hjoins⟩
  · rintro ⟨path, hjoins⟩
    rw [← path.reverse_reverse, joins_reverse_iff] at hjoins
    obtain ⟨d, hd, -⟩ := hjoins.exists_distance_le
    exact ⟨d, hd⟩
  · rw [exists_target?_iff, shows_iff hg]
    refine exists_congr fun i => ?_
    simp only [Candidate, and_or_left, exists_or]

/-- A graph with a cycle, an edge from a node to itself, two edges between the same nodes, and two
ways to nodes at which `p` may be `freed`. The shortest of them is lost with the node that is
removed. -/
def detour : ExplodedGraph :=
  let p : EquivClass := .singleton (.var ⟨"p", some 0, .param, .pointer⟩)
  let solo (n : NodeId) : ExplodedNode := ⟨n, .solo, ⟨n, ∅⟩⟩
  let freed : ExplodedNode := ⟨4, .statewise p (.named "freed"),
    ⟨4, SortedMap.empty.insert p (.singleton (.named "freed"))⟩⟩
  let edge (source target : NodeId) : ExplodedEdge := ⟨source, target, 0, []⟩
  ExplodedGraph.keep
    { nodes := .enumerate [solo 0, solo 1, solo 2, solo 3, freed, freed, freed]
      edges := .enumerate [edge 0 2, edge 2 4, edge 0 1, edge 1 1, edge 1 3, edge 1 3, edge 3 0,
        edge 3 5, edge 5 6, edge 3 6]
      entry := 0 } (· ≠ 2)

/-- A use of `p` that was found where `p` is `freed`. -/
def useOfFreed : Finding :=
  let p : Expr := .var ⟨"p", some 0, .param, .pointer⟩
  { node := 4, function := some 0, cls := .singleton p, expr := p, state := .named "freed",
    message := "use of p", cwe := none, found := ⟨.usage (.decl "ptr"), ∅⟩, location := none,
    rule := none }

theorem detour_nearest : detour.Closed ∧
    detour.tree.distance 4 = none ∧ (¬ ∃ path, detour.Joins detour.entry path 4) ∧
    detour.tree.distance 6 = some 3 ∧ detour.tree.path 6 = some [2, 4, 9] ∧
    detour.Joins detour.entry [2, 4, 9] 6 ∧
    (∀ path, detour.Joins detour.entry path 6 → 3 ≤ path.length) ∧
    detour.target? detour.routes useOfFreed = some 5 ∧ detour.IsTarget useOfFreed 5 := by
  have hg : detour.Closed := by decide +kernel
  obtain ⟨hreached, hshortest, hclosed⟩ := paths_and_targets_nearest detour
  obtain ⟨hroutes, htargets⟩ := hclosed hg
  have hnone : detour.tree.distance 4 = none := by
    rw [← (hroutes 4).1]
    decide +kernel
  have hsix : detour.tree.distance 6 = some 3 := by
    rw [← (hroutes 6).1]
    decide +kernel
  have hpath : detour.tree.path 6 = some [2, 4, 9] := by
    rw [← (hroutes 6).2]
    decide +kernel
  have htarget : detour.target? detour.routes useOfFreed = some 5 := by decide +kernel
  obtain ⟨hleast, path, hsome, hjoins, -⟩ := hshortest 6 3 hsix
  obtain rfl := Option.some.inj (hpath.symm.trans hsome)
  refine ⟨hg, hnone, fun h => ?_, hsix, hpath, hjoins,
    fun path hpath => hleast.2 ⟨path, hpath, rfl⟩, htarget, ((htargets useOfFreed).1 5).1 htarget⟩
  obtain ⟨d, hd⟩ := (hreached 4).2 h
  rw [hnone] at hd
  cases hd

end ExplodedGraph

end Typestate
