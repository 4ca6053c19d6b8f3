import Typestate.Exploded.Routes

/-!
# Search trees

The search for shortest routes as it is carried out with a queue. Of each node that it meets the
search keeps the distance from the entry, and the edge along which the node was met first; the
nodes that were met wait in the queue until their own edges are followed. These edges form a tree:
the path to a node is found by walking back along them until a node has none, which is the entry.

The walk comes to an end since the source of such an edge is nearer to the entry than its target.
-/

namespace Typestate

/-- The entry has distance 0, and is the only node with a distance and without an edge. The edge of
any other node leads to it from a node that is one step nearer. -/
structure Rooted (g : ExplodedGraph) (distances : SortedMap NodeId Nat)
    (parents : SortedMap NodeId EdgeId) : Prop where
  entry : distances.get? g.entry = some 0
  orphan : ∀ {n d}, distances.get? n = some d → parents.get? n = none → n = g.entry
  parent : ∀ {n k}, parents.get? n = some k → ∃ x d, g.edges.get? k = some x ∧ x.target = n ∧
    distances.get? x.source = some d ∧ distances.get? n = some (d + 1)

/-- A search with a queue of the nodes that were met and whose edges are still to be followed. -/
structure BreadthFirst where
  distances : SortedMap NodeId Nat
  parents : SortedMap NodeId EdgeId
  queue : List NodeId

namespace BreadthFirst

variable (g : ExplodedGraph) (s : BreadthFirst)

def start : BreadthFirst := ⟨SortedMap.empty.insert g.entry 0, ∅, [g.entry]⟩

def meet (d : Nat) (s : BreadthFirst) (e : EdgeId × ExplodedEdge) : BreadthFirst :=
  if s.distances.contains e.2.target then s
  else
    { distances := s.distances.insert e.2.target d
      parents := s.parents.insert e.2.target e.1
      queue := s.queue ++ [e.2.target] }

def expand (n : NodeId) : BreadthFirst :=
  (g.edges.entries.filter (·.2.source = n)).foldl (meet ((s.distances.get? n).getD 0 + 1)) s

/-- The edges to nodes that were not met yet. -/
def unmet : List (EdgeId × ExplodedEdge) :=
  g.edges.entries.filter fun e => !s.distances.contains e.2.target

variable {g s}

theorem get?_meet {d : Nat} {e : EdgeId × ExplodedEdge} {m : NodeId} :
    (s.meet d e).distances.get? m =
      if m = e.2.target ∧ s.distances.contains m = false then some d
      else s.distances.get? m := by
  unfold meet
  by_cases he : s.distances.contains e.2.target = true
  · rw [if_pos he, if_neg]
    rintro ⟨rfl, hm⟩
    simp [he] at hm
  · rw [if_neg he, SortedMap.get?_insert]
    by_cases hm : m = e.2.target
    · subst hm
      simp [he]
    · simp [hm]

theorem get?_meet_of_some {d c : Nat} {e : EdgeId × ExplodedEdge} {m : NodeId}
    (h : s.distances.get? m = some c) : (s.meet d e).distances.get? m = some c := by
  rw [get?_meet, if_neg, h]
  rintro ⟨-, hm⟩
  simp [SortedMap.contains, h] at hm

theorem contains_meet {d : Nat} {e : EdgeId × ExplodedEdge} {m : NodeId} :
    (s.meet d e).distances.contains m = (s.distances.contains m || decide (m = e.2.target)) := by
  rw [SortedMap.contains, get?_meet]
  by_cases hm : m = e.2.target
  · cases hc : s.distances.get? m <;> simp [SortedMap.contains, hm, hm ▸ hc]
  · simp [SortedMap.contains, hm]

/-- To meet the target of an edge leaves the search as it is or one edge less to follow. -/
theorem meet_eq_or_unmet_lt {d : Nat} {e : EdgeId × ExplodedEdge} (he : e ∈ g.edges.entries) :
    s.meet d e = s ∨ ((s.meet d e).unmet g).length < (s.unmet g).length := by
  by_cases hmet : s.distances.contains e.2.target = true
  · exact .inl (if_pos hmet)
  · rw [Bool.not_eq_true] at hmet
    refine .inr (Vocabulary.length_filter_lt (fun x _ hx => ?_) he ?_ (by simp [hmet]))
    · rw [contains_meet, Bool.not_or, Bool.and_eq_true] at hx
      exact hx.1
    · simp [contains_meet]

theorem expand_eq_or_unmet_lt (n : NodeId) :
    s.expand g n = s ∨ ((s.expand g n).unmet g).length < (s.unmet g).length := by
  refine List.foldlRecOn
    (motive := fun t : BreadthFirst => t = s ∨ (t.unmet g).length < (s.unmet g).length)
    _ _ (.inl rfl) fun t ht e he => ?_
  rcases t.meet_eq_or_unmet_lt (List.mem_filter.1 he).1 with heq | hlt
  · rwa [heq]
  · rcases ht with rfl | ht
    · exact .inr hlt
    · exact .inr (Nat.lt_trans hlt ht)

variable (g) in
/-- Follows the edges of the nodes in the queue, and of those that are put there, until none is
left. -/
def run (s : BreadthFirst) : BreadthFirst :=
  match _ : s.queue with
  | [] => s
  | n :: rest => run (expand g { s with queue := rest } n)
termination_by ((s.unmet g).length, s.queue.length)
decreasing_by
  rcases expand_eq_or_unmet_lt (g := g) (s := { s with queue := rest }) n with heq | hlt
  · rw [heq, ‹s.queue = _›]
    exact .right _ (Nat.lt_succ_self _)
  · exact .left _ _ hlt

theorem run_of_nil (h : s.queue = []) : s.run g = s := by
  rw [run]
  split
  · rfl
  · rename_i hcons
    rw [h] at hcons
    cases hcons

theorem run_of_cons {n : NodeId} {rest : List NodeId} (h : s.queue = n :: rest) :
    s.run g = (expand g { s with queue := rest } n).run g := by
  rw [run]
  split
  · rename_i hnil
    rw [h] at hnil
    cases hnil
  · rename_i hcons
    rw [h] at hcons
    cases hcons
    rfl

theorem run_induction {P : BreadthFirst → Prop}
    (step : ∀ s n rest, s.queue = n :: rest → P s → P (expand g { s with queue := rest } n))
    (h : P s) : P (s.run g) ∧ (s.run g).queue = [] := by
  fun_induction run g s with
  | case1 s hnil => exact ⟨h, hnil⟩
  | case2 s n rest hcons ih => exact ih (step s n rest hcons h)

variable (g) in
/-- The distances and edges of a search form a tree, and the nodes in its queue have distances. -/
structure Growing (s : BreadthFirst) : Prop where
  rooted : Rooted g s.distances s.parents
  queued : ∀ m ∈ s.queue, ∃ d, s.distances.get? m = some d

theorem growing_start : Growing g (start g) := by
  have hentry : (start g).distances.get? g.entry = some 0 := by simp [start]
  refine ⟨⟨hentry, fun {n d} hn _ => ?_, fun hk => ?_⟩, fun m hm => ?_⟩
  · simp only [start, SortedMap.get?_insert] at hn
    split at hn
    · assumption
    · cases hn
  · cases hk
  · exact List.mem_singleton.1 hm ▸ ⟨0, hentry⟩

/-- What is met along an edge is one step further than the source of the edge. -/
theorem Growing.meet (h : Growing g s) {e : EdgeId × ExplodedEdge} {d : Nat}
    (he : g.edges.get? e.1 = some e.2) (hd : s.distances.get? e.2.source = some d) :
    Growing g (s.meet (d + 1) e) := by
  by_cases hmet : s.distances.contains e.2.target = true
  · rwa [BreadthFirst.meet, if_pos hmet]
  · rw [Bool.not_eq_true] at hmet
    have htarget : (s.meet (d + 1) e).distances.get? e.2.target = some (d + 1) := by
      rw [get?_meet, if_pos ⟨rfl, hmet⟩]
    have hparents : (s.meet (d + 1) e).parents = s.parents.insert e.2.target e.1 := by
      simp [BreadthFirst.meet, hmet]
    have hqueue : (s.meet (d + 1) e).queue = s.queue ++ [e.2.target] := by
      simp [BreadthFirst.meet, hmet]
    refine ⟨⟨get?_meet_of_some h.rooted.entry, fun {n c} hn hnone => ?_, fun {n k} hk => ?_⟩,
      fun m hm => ?_⟩
    · rw [hparents, SortedMap.get?_insert] at hnone
      split at hnone
      · cases hnone
      · rename_i hne
        rw [get?_meet, if_neg fun hm => hne hm.1] at hn
        exact h.rooted.orphan hn hnone
    · rw [hparents, SortedMap.get?_insert] at hk
      split at hk
      · rename_i hn
        obtain rfl := Option.some.inj hk
        exact ⟨e.2, d, he, hn.symm, get?_meet_of_some hd, hn ▸ htarget⟩
      · obtain ⟨x, c, hx, hn, hsource, hc⟩ := h.rooted.parent hk
        exact ⟨x, c, hx, hn, get?_meet_of_some hsource, get?_meet_of_some hc⟩
    · rw [hqueue, List.mem_append, List.mem_singleton] at hm
      rcases hm with hm | rfl
      · obtain ⟨c, hc⟩ := h.queued m hm
        exact ⟨c, get?_meet_of_some hc⟩
      · exact ⟨d + 1, htarget⟩

theorem Growing.expand (h : Growing g s) {n : NodeId} {d : Nat}
    (hn : s.distances.get? n = some d) : Growing g (s.expand g n) := by
  unfold BreadthFirst.expand
  rw [hn, Option.getD_some]
  refine (List.foldlRecOn (motive := fun t : BreadthFirst =>
    Growing g t ∧ t.distances.get? n = some d) _ _ ⟨h, hn⟩ fun t ht e he => ?_).1
  obtain ⟨hedge, hsource⟩ := List.mem_filter.1 he
  obtain rfl : e.2.source = n := of_decide_eq_true hsource
  exact ⟨ht.1.meet (SortedMap.mem_entries_iff.1 hedge) ht.2, get?_meet_of_some ht.2⟩

theorem growing_run (g : ExplodedGraph) : Growing g ((start g).run g) := by
  refine (run_induction (fun s n rest hs h => ?_) growing_start).1
  obtain ⟨d, hd⟩ := h.queued n (by simp [hs])
  have hrest : Growing g { s with queue := rest } :=
    ⟨h.rooted, fun m hm => h.queued m (by simp [hs, hm])⟩
  exact hrest.expand hd

end BreadthFirst

/-- The distances of the nodes that a search has met, and the edge along which each of them but the
entry was met. -/
structure SearchTree (g : ExplodedGraph) where
  distances : SortedMap NodeId Nat
  parents : SortedMap NodeId EdgeId
  rooted : Rooted g distances parents

namespace SearchTree

variable {g : ExplodedGraph} (t : SearchTree g)

theorem distance_lt {t : SearchTree g} {n : NodeId} {k : EdgeId} {x : ExplodedEdge}
    (hk : t.parents.get? n = some k) (hx : g.edges.get? k = some x) :
    (t.distances.get? x.source).getD 0 < (t.distances.get? n).getD 0 := by
  obtain ⟨y, d, hy, -, hsource, hn⟩ := t.rooted.parent hk
  obtain rfl : x = y := Option.some.inj (hx.symm.trans hy)
  rw [hsource, hn]
  exact Nat.lt_succ_self d

def distance (n : NodeId) : Option Nat := t.distances.get? n

/-- The edges on the way back from a node, as long as the graph has them. -/
def back (t : SearchTree g) (n : NodeId) : Option (List EdgeId) :=
  match _ : t.parents.get? n with
  | none => some []
  | some k =>
    match _ : g.edges.get? k with
    | none => none
    | some x => (t.back x.source).map (k :: ·)
termination_by (t.distances.get? n).getD 0
decreasing_by exact distance_lt ‹_› ‹_›

def path (n : NodeId) : Option (List EdgeId) :=
  (t.distance n).bind fun _ => (t.back n).map List.reverse

end SearchTree

def ExplodedGraph.tree (g : ExplodedGraph) : SearchTree g :=
  let s := (BreadthFirst.start g).run g
  ⟨s.distances, s.parents, (BreadthFirst.growing_run g).rooted⟩

end Typestate
