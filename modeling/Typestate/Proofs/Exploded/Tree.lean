import Mathlib.Order.Bounds.Basic
import Typestate.Exploded.Tree
import Typestate.Proofs.Exploded.Routes

/-!
# Search trees hold shortest paths

The queue of a search holds nodes of one distance and behind them nodes that are one step further.
So a node that is met gets a distance which no other edge could better: each edge that has been
followed leads at most one step further than its source is. When the queue is empty all edges out
of nodes with distances have been followed, and no path can be shorter than the distance of its end.

The search that stores whole routes and goes on in layers meets the same nodes in the same order:
its layers are the queue, piece by piece.
-/
namespace Typestate

namespace ExplodedGraph

/-- Whether edges of a graph lead, one after another, from a node to another. -/
inductive Joins (g : ExplodedGraph) : NodeId → List EdgeId → NodeId → Prop
  | nil (n : NodeId) : Joins g n [] n
  | cons {k x path m} : g.edges.get? k = some x → Joins g x.target path m →
      Joins g x.source (k :: path) m

variable {g : ExplodedGraph} {n m : NodeId} {path route : List EdgeId} {k : EdgeId}
  {x : ExplodedEdge}

theorem Joins.snoc (h : g.Joins n path x.source) (hx : g.edges.get? k = some x) :
    g.Joins n (path ++ [k]) x.target := by
  generalize hm : x.source = m at h
  induction h with
  | nil n =>
    subst hm
    exact .cons hx (.nil _)
  | cons hy _ ih => exact .cons hy (ih hm)

theorem Joins.leads (h : g.Joins n path m) (hn : g.Leads route n) :
    g.Leads (path.reverse ++ route) m := by
  induction h generalizing route with
  | nil n => exact hn
  | cons hx _ ih => simpa using ih (hn.extend hx)

theorem joins_reverse_iff : g.Joins g.entry route.reverse n ↔ g.Leads route n := by
  constructor
  · intro h
    simpa using h.leads .start
  · intro h
    induction h with
    | start => exact .nil _
    | extend _ hx ih => simpa using ih.snoc hx

end ExplodedGraph

namespace BreadthFirst

variable {g : ExplodedGraph} {s : BreadthFirst} {n : NodeId} {d : Nat}

/-- Whether an edge leads at most one step further than to a distance. -/
def Reaches (s : BreadthFirst) (x : ExplodedEdge) (d : Nat) : Prop :=
  ∃ c, s.distances.get? x.target = some c ∧ c ≤ d + 1

/-- The state of a search while the nodes at a distance are expanded, with edges that are to be
followed next. -/
structure Level (g : ExplodedGraph) (d : Nat) (todo : List (EdgeId × ExplodedEdge))
    (s : BreadthFirst) : Prop where
  queue : ∃ near far, s.queue = near ++ far ∧ (∀ m ∈ near, s.distances.get? m = some d) ∧
    ∀ m ∈ far, s.distances.get? m = some (d + 1)
  bound : ∀ {m c}, s.distances.get? m = some c → c ≤ d + 1
  followed : ∀ {k x c}, g.edges.get? k = some x → s.distances.get? x.source = some c →
    x.source ∈ s.queue ∨ (k, x) ∈ todo ∨ s.Reaches x c

theorem level_start : Level g 0 [] (start g) := by
  have hdist : ∀ m c, (start g).distances.get? m = some c → m = g.entry ∧ c = 0 := by
    intro m c h
    rw [start, SortedMap.get?_insert] at h
    split at h
    · exact ⟨‹_›, (Option.some.inj h).symm⟩
    · cases h
  refine ⟨⟨[g.entry], [], rfl, fun m hm => ?_, by simp⟩, fun {m c} h => ?_, fun {k x c} _ h => ?_⟩
  · rw [List.mem_singleton.1 hm, start, SortedMap.get?_insert, if_pos rfl]
  · simp [(hdist m c h).2]
  · exact .inl (List.mem_singleton.2 (hdist _ c h).1)

theorem Reaches.meet {x : ExplodedEdge} {c : Nat} (h : s.Reaches x c)
    (e : EdgeId × ExplodedEdge) : (s.meet d e).Reaches x c := by
  obtain ⟨b, hb, hle⟩ := h
  exact ⟨b, get?_meet_of_some hb, hle⟩

/-- An edge to a node that was met before need not be followed: the node is at most one step further
than the nodes that are expanded. -/
theorem Level.skip {e : EdgeId × ExplodedEdge} {todo : List (EdgeId × ExplodedEdge)}
    (h : Level g d (e :: todo) s) (he : s.distances.get? e.2.source = some d)
    (hmet : s.distances.contains e.2.target = true) : Level g d todo s := by
  refine ⟨h.queue, h.bound, fun {k x c} hx hc => ?_⟩
  rcases h.followed hx hc with hqueue | htodo | hreaches
  · exact .inl hqueue
  · rcases List.mem_cons.1 htodo with rfl | htodo
    · obtain ⟨b, hb⟩ := Option.isSome_iff_exists.1 hmet
      obtain rfl := Option.some.inj (he.symm.trans hc)
      exact .inr (.inr ⟨b, hb, h.bound hb⟩)
    · exact .inr (.inl htodo)
  · exact .inr (.inr hreaches)

theorem Level.meet {e : EdgeId × ExplodedEdge} {todo : List (EdgeId × ExplodedEdge)}
    (h : Level g d (e :: todo) s) (he : s.distances.get? e.2.source = some d) :
    Level g d todo (s.meet (d + 1) e) := by
  by_cases hmet : s.distances.contains e.2.target = true
  · have hsame : s.meet (d + 1) e = s := if_pos hmet
    rw [hsame]
    exact h.skip he hmet
  · rw [Bool.not_eq_true] at hmet
    have htarget : (s.meet (d + 1) e).distances.get? e.2.target = some (d + 1) := by
      rw [get?_meet, if_pos ⟨rfl, hmet⟩]
    have hqueue : (s.meet (d + 1) e).queue = s.queue ++ [e.2.target] := by
      simp [BreadthFirst.meet, hmet]
    have hold : ∀ {m c}, (s.meet (d + 1) e).distances.get? m = some c → m ≠ e.2.target →
        s.distances.get? m = some c := by
      intro m c hc hm
      rwa [get?_meet, if_neg fun h => hm h.1] at hc
    refine ⟨?_, fun {m c} hc => ?_, fun {k x c} hx hc => ?_⟩
    · obtain ⟨near, far, hsplit, hnear, hfar⟩ := h.queue
      refine ⟨near, far ++ [e.2.target], by rw [hqueue, hsplit, List.append_assoc],
        fun m hm => get?_meet_of_some (hnear m hm), fun m hm => ?_⟩
      rcases List.mem_append.1 hm with hm | hm
      · exact get?_meet_of_some (hfar m hm)
      · rwa [List.mem_singleton.1 hm]
    · by_cases hm : m = e.2.target
      · rw [hm, htarget] at hc
        exact (Option.some.inj hc).ge
      · exact h.bound (hold hc hm)
    · rw [hqueue, List.mem_append, List.mem_singleton]
      by_cases hsource : x.source = e.2.target
      · exact .inl (.inr hsource)
      · rcases h.followed hx (hold hc hsource) with hmem | htodo | hreaches
        · exact .inl (.inl hmem)
        · rcases List.mem_cons.1 htodo with rfl | htodo
          · obtain rfl := Option.some.inj (he.symm.trans (hold hc hsource))
            exact .inr (.inr ⟨d + 1, htarget, le_rfl⟩)
          · exact .inr (.inl htodo)
        · exact .inr (.inr (hreaches.meet e))

theorem Level.foldl_meet {todo : List (EdgeId × ExplodedEdge)} (h : Level g d todo s)
    (htodo : ∀ e ∈ todo, s.distances.get? e.2.source = some d) :
    Level g d [] (todo.foldl (BreadthFirst.meet (d + 1)) s) := by
  induction todo generalizing s with
  | nil => exact h
  | cons e todo ih =>
    exact ih (h.meet (htodo e (by simp))) fun e' he' =>
      get?_meet_of_some (htodo e' (by simp [he']))

/-- The first node of the queue has the distance of the level or, if the nodes of the level are all
expanded, begins the next level. -/
theorem Level.pop {rest : List NodeId} (h : Level g d [] s) (hs : s.queue = n :: rest) :
    ∃ d', s.distances.get? n = some d' ∧
      Level g d' (g.edges.entries.filter (·.2.source = n)) { s with queue := rest } := by
  obtain ⟨near, far, hsplit, hnear, hfar⟩ := h.queue
  have hfollowed : ∀ {k x c}, g.edges.get? k = some x → s.distances.get? x.source = some c →
      x.source ∈ rest ∨ (k, x) ∈ g.edges.entries.filter (·.2.source = n) ∨ s.Reaches x c := by
    intro k x c hx hc
    rcases h.followed hx hc with hmem | htodo | hreaches
    · rcases List.mem_cons.1 (hs ▸ hmem) with hn | hmem
      · refine .inr (.inl (List.mem_filter.2 ⟨SortedMap.mem_entries_iff.2 hx, ?_⟩))
        exact decide_eq_true hn
      · exact .inl hmem
    · cases htodo
    · exact .inr (.inr hreaches)
  rw [hs] at hsplit
  cases near with
  | nil =>
    obtain rfl : far = n :: rest := hsplit.symm
    refine ⟨d + 1, hfar n (by simp), ⟨rest, [], by simp, fun m hm => hfar m (by simp [hm]),
      by simp⟩, fun hc => (h.bound hc).trans (Nat.le_succ _), hfollowed⟩
  | cons n' near =>
    obtain ⟨rfl, rfl⟩ := List.cons_eq_cons.1 hsplit
    exact ⟨d, hnear n (by simp), ⟨near, far, rfl, fun m hm => hnear m (by simp [hm]), hfar⟩,
      h.bound, hfollowed⟩

theorem Level.expand {rest : List NodeId} (h : Level g d [] s) (hs : s.queue = n :: rest) :
    ∃ d', Level g d' [] (BreadthFirst.expand g { s with queue := rest } n) := by
  obtain ⟨d', hn, hlevel⟩ := h.pop hs
  refine ⟨d', ?_⟩
  unfold BreadthFirst.expand
  dsimp only
  rw [hn, Option.getD_some]
  refine hlevel.foldl_meet fun e he => ?_
  rw [of_decide_eq_true (List.mem_filter.1 he).2, hn]

/-- When the search is over, each edge from a node with a distance leads at most one step further.
-/
theorem reaches_run (g : ExplodedGraph) {k : EdgeId} {x : ExplodedEdge} {c : Nat}
    (hx : g.edges.get? k = some x) (hc : ((start g).run g).distances.get? x.source = some c) :
    ((start g).run g).Reaches x c := by
  obtain ⟨⟨d, hlevel⟩, hqueue⟩ := run_induction (g := g) (s := start g)
    (P := fun s => ∃ d, Level g d [] s) (fun s n rest hs ⟨d, h⟩ => h.expand hs) ⟨0, level_start⟩
  rcases hlevel.followed hx hc with hmem | htodo | hreaches
  · rw [hqueue] at hmem
    cases hmem
  · cases htodo
  · exact hreaches

end BreadthFirst

namespace SearchTree

variable {g : ExplodedGraph} {t : SearchTree g} {n : NodeId} {d : Nat}

theorem back_of_none (h : t.parents.get? n = none) : t.back n = some [] := by
  rw [back]
  split
  · rfl
  · simp_all

theorem back_of_some {k : EdgeId} {x : ExplodedEdge} (hk : t.parents.get? n = some k)
    (hx : g.edges.get? k = some x) : t.back n = (t.back x.source).map (k :: ·) := by
  rw [back]
  split
  · simp_all
  · rename_i k' hk'
    obtain rfl := Option.some.inj (hk.symm.trans hk')
    split
    · simp_all
    · rename_i y hy
      obtain rfl := Option.some.inj (hx.symm.trans hy)
      rfl

/-- The walk back from a node with a distance ends at the entry after as many edges. -/
theorem exists_back (h : t.distance n = some d) :
    ∃ route, t.back n = some route ∧ g.Leads route n ∧ route.length = d := by
  induction d using Nat.strongRecOn generalizing n with
  | ind d ih =>
    cases hk : t.parents.get? n with
    | none =>
      obtain rfl := t.rooted.orphan h hk
      obtain rfl := Option.some.inj (h.symm.trans t.rooted.entry)
      exact ⟨[], back_of_none hk, .start, rfl⟩
    | some k =>
      obtain ⟨x, c, hx, rfl, hsource, htarget⟩ := t.rooted.parent hk
      obtain rfl := Option.some.inj (h.symm.trans htarget)
      obtain ⟨route, hback, hleads, hlength⟩ := ih c (Nat.lt_succ_self c) hsource
      refine ⟨k :: route, ?_, hleads.extend hx, by simp [hlength]⟩
      rw [back_of_some hk hx, hback, Option.map_some]

theorem exists_path (h : t.distance n = some d) :
    ∃ path, t.path n = some path ∧ g.Joins g.entry path n ∧ path.length = d := by
  obtain ⟨route, hback, hleads, hlength⟩ := exists_back h
  refine ⟨route.reverse, ?_, ExplodedGraph.joins_reverse_iff.2 hleads, by simp [hlength]⟩
  rw [path, h, Option.bind_some, hback, Option.map_some]

end SearchTree

namespace ExplodedGraph

variable {g : ExplodedGraph} {n : NodeId} {d : Nat} {route : List EdgeId}

theorem Leads.exists_distance_le (h : g.Leads route n) :
    ∃ d, g.tree.distance n = some d ∧ d ≤ route.length := by
  induction h with
  | start => exact ⟨0, g.tree.rooted.entry, le_rfl⟩
  | extend _ hx ih =>
    obtain ⟨d, hd, hle⟩ := ih
    obtain ⟨c, hc, hcd⟩ := BreadthFirst.reaches_run g hx hd
    exact ⟨c, hc, hcd.trans (Nat.succ_le_succ hle)⟩

/-- The distance of a node is the least number of edges that lead to it. -/
theorem distance_tree_iff :
    g.tree.distance n = some d ↔
      IsLeast {l | ∃ path, g.Joins g.entry path n ∧ path.length = l} d := by
  have hleast : ∀ {d}, g.tree.distance n = some d →
      IsLeast {l | ∃ path, g.Joins g.entry path n ∧ path.length = l} d := by
    intro d h
    obtain ⟨path, -, hjoins, hlength⟩ := SearchTree.exists_path h
    refine ⟨⟨path, hjoins, hlength⟩, ?_⟩
    rintro _ ⟨path, hjoins, rfl⟩
    rw [← path.reverse_reverse, joins_reverse_iff] at hjoins
    obtain ⟨c, hc, hle⟩ := hjoins.exists_distance_le
    rw [h, Option.some.injEq] at hc
    simpa [hc] using hle
  refine ⟨hleast, fun h => ?_⟩
  obtain ⟨path, hjoins, -⟩ := h.1
  rw [← path.reverse_reverse, joins_reverse_iff] at hjoins
  obtain ⟨c, hc, -⟩ := hjoins.exists_distance_le
  rw [hc, (hleast hc).unique h]

end ExplodedGraph

namespace BreadthFirst

variable {g : ExplodedGraph} {b : BreadthFirst} {s : Search} {n : NodeId} {rest : List NodeId}

/-- A search with a queue and one in layers that have met the same nodes in the same order. The
nodes of the last layer that are not expanded yet are in front of the queue. -/
structure Mirrors (g : ExplodedGraph) (b : BreadthFirst) (s : Search) (rest : List NodeId) :
    Prop where
  queue : b.queue = rest ++ s.layer
  distances : ∀ n, b.distances.get? n = (s.routes.get? n).map List.length
  parents : ∀ n, b.parents.get? n = (s.routes.get? n).bind List.head?
  queued : ∀ m ∈ rest ++ s.layer, ∃ route, s.routes.get? m = some route
  tails : ∀ {n k tail}, s.routes.get? n = some (k :: tail) →
    ∃ x, g.edges.get? k = some x ∧ s.routes.get? x.source = some tail

theorem mirrors_start (g : ExplodedGraph) :
    Mirrors g (start g) ⟨SortedMap.empty.insert g.entry [], [g.entry]⟩ [] where
  queue := rfl
  distances n := by
    simp only [start, SortedMap.get?_insert]
    split <;> rfl
  parents n := by
    simp only [start, SortedMap.get?_insert]
    split <;> rfl
  queued m hm := ⟨[], by rw [List.mem_singleton.1 hm, SortedMap.get?_insert, if_pos rfl]⟩
  tails {n k tail} h := by
    rw [SortedMap.get?_insert] at h
    split at h <;> cases h

theorem get?_visit_of_some {route r : List EdgeId} {y : EdgeId × NodeId} {m : NodeId}
    (h : s.routes.get? m = some r) : (s.visit route y).routes.get? m = some r := by
  unfold Search.visit
  split
  · exact h
  · rename_i hmet
    rw [SortedMap.get?_insert, if_neg, h]
    rintro rfl
    simp [SortedMap.contains, h] at hmet

theorem Mirrors.visit (h : Mirrors g b s rest) {route : List EdgeId} {e : EdgeId × ExplodedEdge}
    (he : g.edges.get? e.1 = some e.2) (hroute : s.routes.get? e.2.source = some route) :
    Mirrors g (b.meet (route.length + 1) e) (s.visit route (e.1, e.2.target)) rest := by
  have hcontains : b.distances.contains e.2.target = s.routes.contains e.2.target := by
    rw [SortedMap.contains, h.distances, Option.isSome_map, SortedMap.contains]
  have hkept : ∀ {m r}, s.routes.get? m = some r →
      (s.visit route (e.1, e.2.target)).routes.get? m = some r := get?_visit_of_some
  by_cases hmet : s.routes.contains e.2.target = true
  · rwa [BreadthFirst.meet, if_pos (hcontains.trans hmet), Search.visit, if_pos hmet]
  · rw [Search.visit, if_neg hmet] at hkept
    rw [BreadthFirst.meet, if_neg (fun hb => hmet (hcontains.symm.trans hb)), Search.visit,
      if_neg hmet]
    refine ⟨by simp [h.queue], fun m => ?_, fun m => ?_, fun m hm => ?_, fun {m k tail} hm => ?_⟩
    · simp only [SortedMap.get?_insert, h.distances]
      split <;> simp
    · simp only [SortedMap.get?_insert, h.parents]
      split <;> simp
    · rw [← List.append_assoc, List.mem_append, List.mem_singleton] at hm
      rcases hm with hm | rfl
      · obtain ⟨r, hr⟩ := h.queued m hm
        exact ⟨r, hkept hr⟩
      · exact ⟨e.1 :: route, by rw [SortedMap.get?_insert, if_pos rfl]⟩
    · rw [SortedMap.get?_insert] at hm
      split at hm
      · obtain ⟨rfl, rfl⟩ := List.cons_eq_cons.1 (Option.some.inj hm)
        exact ⟨e.2, he, hkept hroute⟩
      · obtain ⟨x, hx, htail⟩ := h.tails hm
        exact ⟨x, hx, hkept htail⟩

theorem Mirrors.foldl_visit (h : Mirrors g b s rest) {route : List EdgeId}
    {l : List (EdgeId × ExplodedEdge)}
    (hl : ∀ e ∈ l, g.edges.get? e.1 = some e.2 ∧ s.routes.get? e.2.source = some route) :
    Mirrors g (l.foldl (BreadthFirst.meet (route.length + 1)) b)
      ((l.map fun (k, x) => (k, x.target)).foldl (Search.visit route) s) rest := by
  induction l generalizing b s with
  | nil => exact h
  | cons e l ih =>
    obtain ⟨he, hroute⟩ := hl e (by simp)
    refine ih (h.visit he hroute) fun e' he' => ?_
    obtain ⟨hedge, hsource⟩ := hl e' (by simp [he'])
    exact ⟨hedge, get?_visit_of_some hsource⟩

theorem Mirrors.expand (h : Mirrors g b s (n :: rest)) :
    Mirrors g (BreadthFirst.expand g { b with queue := rest ++ s.layer } n) (s.expand g n)
      rest := by
  obtain ⟨route, hroute⟩ := h.queued n (by simp)
  have hrest : Mirrors g { b with queue := rest ++ s.layer } s rest :=
    ⟨rfl, h.distances, h.parents, fun m hm => h.queued m (List.mem_cons_of_mem n hm), h.tails⟩
  unfold BreadthFirst.expand Search.expand ExplodedGraph.successors
  simp only [h.distances, hroute, Option.map_some, Option.getD_some]
  refine hrest.foldl_visit fun e he => ?_
  obtain ⟨hedge, hsource⟩ := List.mem_filter.1 he
  exact ⟨SortedMap.mem_entries_iff.1 hedge, of_decide_eq_true hsource ▸ hroute⟩

theorem Mirrors.sweep (h : Mirrors g b s rest) : ∃ b', b.run g = b'.run g ∧
    Mirrors g b' (rest.foldl (Search.expand g) s) [] := by
  induction rest generalizing b s with
  | nil => exact ⟨b, rfl, h⟩
  | cons n rest ih =>
    obtain ⟨b', hrun, hmirrors⟩ := ih h.expand
    exact ⟨b', (run_of_cons h.queue).trans hrun, hmirrors⟩

theorem Mirrors.run (fuel : Nat) (h : Mirrors g b s []) : ∃ b', b.run g = b'.run g ∧
    Mirrors g b' (Search.run g fuel s) [] := by
  induction fuel generalizing b s with
  | zero => exact ⟨b, rfl, h⟩
  | succ fuel ih =>
    unfold Search.run
    split
    · exact ⟨b, rfl, h⟩
    · have hlayer : Mirrors g b { s with layer := [] } s.layer :=
        ⟨by simp [h.queue], h.distances, h.parents, by simpa using h.queued, h.tails⟩
      obtain ⟨b', hrun, hmirrors⟩ := hlayer.sweep
      obtain ⟨b'', hrun', hmirrors'⟩ := ih hmirrors
      exact ⟨b'', hrun.trans hrun', hmirrors'⟩

end BreadthFirst

namespace ExplodedGraph

variable {g : ExplodedGraph}

/-- The search with a queue ends with the routes that are found in layers. -/
theorem mirrors_run (hg : g.Closed) :
    ∃ s : Search, s.routes = g.routes ∧
      BreadthFirst.Mirrors g ((BreadthFirst.start g).run g) s [] := by
  obtain ⟨b, hrun, h⟩ := (BreadthFirst.mirrors_start g).run g.nodes.size
  have hlayer := (between_start hg).layer_run hg (.inr (unrouted_start_lt hg))
  have hqueue : b.queue = [] := by rw [h.queue, hlayer, List.append_nil]
  rw [hrun, BreadthFirst.run_of_nil hqueue]
  exact ⟨_, rfl, h⟩

theorem distance_tree (hg : g.Closed) (n : NodeId) : g.tree.distance n = g.routes.distance n := by
  obtain ⟨s, hs, h⟩ := mirrors_run hg
  exact (h.distances n).trans (by rw [hs, Routes.distance])

theorem back_tree (hg : g.Closed) {n : NodeId} {route : List EdgeId}
    (h : g.routes.get? n = some route) : g.tree.back n = some route := by
  obtain ⟨s, hs, hmirrors⟩ := mirrors_run hg
  have hparent : ∀ m, g.tree.parents.get? m = (g.routes.get? m).bind List.head? :=
    fun m => hs ▸ hmirrors.parents m
  induction route generalizing n with
  | nil => exact SearchTree.back_of_none (by rw [hparent, h]; rfl)
  | cons k tail ih =>
    obtain ⟨x, hx, htail⟩ := hmirrors.tails (hs ▸ h)
    rw [SearchTree.back_of_some (k := k) (by rw [hparent, h]; rfl) hx, ih (hs ▸ htail),
      Option.map_some]

theorem path_tree (hg : g.Closed) (n : NodeId) : g.tree.path n = g.routes.path n := by
  rw [SearchTree.path, distance_tree hg, Routes.distance, Routes.path]
  cases h : g.routes.get? n with
  | none => rfl
  | some route => rw [Option.map_some, Option.bind_some, back_tree hg h, Option.map_some]

end ExplodedGraph

end Typestate
