import Typestate.Automaton.Vocabulary
import Typestate.Exploded.Routes

/-!
# The search for routes is sound and complete

Every route that the search stores leads along edges from the entry to its node. A layer of the
search is swept node by node: a node that has a route is in the next layer, still to be swept, or
all its edges lead to nodes with routes. Each layer but the last gives a route to a node that had
none, so there are at most as many layers as nodes, and when the search ends the nodes with routes
are closed under edges.
-/
namespace Typestate

namespace ExplodedGraph

/-- The entry and the ends of all edges are nodes of the graph. -/
structure Closed (g : ExplodedGraph) : Prop where
  entry : g.nodes.contains g.entry = true
  source : ∀ {k x}, g.edges.get? k = some x → g.nodes.contains x.source = true
  target : ∀ {k x}, g.edges.get? k = some x → g.nodes.contains x.target = true

variable {g : ExplodedGraph}

theorem closed_iff : g.Closed ↔ g.nodes.contains g.entry = true ∧
    ∀ x ∈ g.edges.entries,
      g.nodes.contains x.2.source = true ∧ g.nodes.contains x.2.target = true := by
  constructor
  · intro h
    refine ⟨h.entry, fun x hx => ?_⟩
    have hx := SortedMap.mem_entries_iff.1 hx
    exact ⟨h.source hx, h.target hx⟩
  · rintro ⟨hentry, hedges⟩
    exact ⟨hentry, fun hx => (hedges _ (SortedMap.mem_entries_iff.2 hx)).1,
      fun hx => (hedges _ (SortedMap.mem_entries_iff.2 hx)).2⟩

instance (g : ExplodedGraph) : Decidable g.Closed := decidable_of_iff' _ closed_iff

theorem mem_successors {n : NodeId} {y : EdgeId × NodeId} :
    y ∈ g.successors n ↔ ∃ x, g.edges.get? y.1 = some x ∧ x.source = n ∧ x.target = y.2 := by
  obtain ⟨k, m⟩ := y
  unfold successors
  constructor
  · intro h
    obtain ⟨⟨k', x⟩, hx, heq⟩ := List.mem_map.1 h
    obtain ⟨hx, hn⟩ := List.mem_filter.1 hx
    cases heq
    exact ⟨x, SortedMap.mem_entries_iff.1 hx, by simpa using hn, rfl⟩
  · rintro ⟨x, hx, hn, rfl⟩
    refine List.mem_map.2 ⟨(k, x), List.mem_filter.2 ⟨SortedMap.mem_entries_iff.2 hx, ?_⟩, rfl⟩
    simpa using hn

/-- Whether a list of edges, the last one first, leads from the entry to a node. -/
inductive Leads (g : ExplodedGraph) : List EdgeId → NodeId → Prop
  | start : Leads g [] g.entry
  | extend {route k x} : Leads g route x.source → g.edges.get? k = some x →
      Leads g (k :: route) x.target

end ExplodedGraph

namespace Search

variable {g : ExplodedGraph} {s : Search} {old : Routes} {n : NodeId} {rest : List NodeId}

section Sound

/-- Every route that a search has found leads to its node. -/
def Sound (g : ExplodedGraph) (s : Search) : Prop :=
  ∀ m route, s.routes.get? m = some route → g.Leads route m

theorem Sound.visit (h : Sound g s) {route : List EdgeId} {y : EdgeId × NodeId}
    (hroute : g.Leads route n) (hy : y ∈ g.successors n) : Sound g (s.visit route y) := by
  unfold Search.visit
  split
  · exact h
  · intro m r hr
    rw [SortedMap.get?_insert] at hr
    split at hr
    · obtain ⟨x, hx, rfl, htarget⟩ := ExplodedGraph.mem_successors.1 hy
      obtain rfl := Option.some.inj hr
      rename_i hm
      rw [hm, ← htarget]
      exact .extend hroute hx
    · exact h m r hr

theorem Sound.foldl_visit (h : Sound g s) {route : List EdgeId} {l : List (EdgeId × NodeId)}
    (hroute : g.Leads route n) (hl : ∀ y ∈ l, y ∈ g.successors n) :
    Sound g (l.foldl (Search.visit route) s) := by
  induction l generalizing s with
  | nil => exact h
  | cons y l ih =>
    exact ih (h.visit hroute (hl y (by simp))) fun z hz => hl z (by simp [hz])

theorem Sound.foldl_expand (h : Sound g s) {l : List NodeId} :
    Sound g (l.foldl (Search.expand g) s) := by
  induction l generalizing s with
  | nil => exact h
  | cons n l ih =>
    refine ih ?_
    unfold Search.expand
    split
    · rename_i route hroute
      exact h.foldl_visit (h n route hroute) fun _ hy => hy
    · exact h

theorem Sound.run (h : Sound g s) {fuel : Nat} : Sound g (Search.run g fuel s) := by
  induction fuel generalizing s with
  | zero => exact h
  | succ fuel ih =>
    unfold Search.run
    split
    · exact h
    · exact ih (Sound.foldl_expand (s := { s with layer := [] }) h)

end Sound

theorem contains_visit {route : List EdgeId} {y : EdgeId × NodeId} {m : NodeId} :
    (s.visit route y).routes.contains m = (s.routes.contains m || decide (m = y.2)) := by
  unfold visit
  split
  · rename_i hy
    by_cases hm : m = y.2
    · simp [hm, hy]
    · simp [hm]
  · by_cases hm : m = y.2
    · simp [SortedMap.contains, hm]
    · simp [SortedMap.contains, hm]

theorem mem_layer_visit {route : List EdgeId} {y : EdgeId × NodeId} {m : NodeId} :
    m ∈ (s.visit route y).layer ↔
      m ∈ s.layer ∨ m = y.2 ∧ s.routes.contains m = false := by
  unfold visit
  split
  · rename_i hy
    refine ⟨.inl, fun h => h.resolve_right ?_⟩
    rintro ⟨rfl, hm⟩
    simp [hy] at hm
  · rename_i hy
    simp only [List.mem_append, List.mem_singleton]
    refine or_congr_right ⟨fun hm => ⟨hm, ?_⟩, And.left⟩
    simpa [hm] using hy

/-- The state of a search while a layer is swept: which routes there are, and which nodes of
the layer are left. -/
structure Sweep (g : ExplodedGraph) (old : Routes) (rest : List NodeId) (s : Search) :
    Prop where
  nodes : ∀ m, s.routes.contains m = true → g.nodes.contains m = true
  layer : ∀ m ∈ s.layer, s.routes.contains m = true
  fresh : ∀ m ∈ s.layer, old.contains m = false
  grown : ∀ m, old.contains m = true → s.routes.contains m = true
  left : ∀ m ∈ rest, s.routes.contains m = true
  settled : ∀ m, s.routes.contains m = true →
    m ∈ s.layer ∨ m ∈ rest ∨ ∀ y ∈ g.successors m, s.routes.contains y.2 = true

theorem Sweep.visit (h : Sweep g old rest s) (route : List EdgeId) {y : EdgeId × NodeId}
    (hy : g.nodes.contains y.2 = true) : Sweep g old rest (s.visit route y) where
  nodes m hm := by
    rw [contains_visit, Bool.or_eq_true] at hm
    rcases hm with hm | hm
    · exact h.nodes m hm
    · exact of_decide_eq_true hm ▸ hy
  layer m hm := by
    rw [contains_visit, Bool.or_eq_true]
    rcases mem_layer_visit.1 hm with hm | ⟨hm, -⟩
    · exact .inl (h.layer m hm)
    · exact .inr (decide_eq_true hm)
  fresh m hm := by
    rcases mem_layer_visit.1 hm with hm | ⟨-, hm⟩
    · exact h.fresh m hm
    · cases hold : old.contains m with
      | false => rfl
      | true =>
        rw [h.grown m hold] at hm
        cases hm
  grown m hm := by
    rw [contains_visit, h.grown m hm, Bool.true_or]
  left m hm := by
    rw [contains_visit, h.left m hm, Bool.true_or]
  settled m hm := by
    by_cases hold : s.routes.contains m = true
    · rcases h.settled m hold with hlayer | hrest | hall
      · exact .inl (mem_layer_visit.2 (.inl hlayer))
      · exact .inr (.inl hrest)
      · refine .inr (.inr fun z hz => ?_)
        rw [contains_visit, hall z hz, Bool.true_or]
    · rw [Bool.not_eq_true] at hold
      rw [contains_visit, hold, Bool.false_or] at hm
      exact .inl (mem_layer_visit.2 (.inr ⟨of_decide_eq_true hm, hold⟩))

theorem Sweep.foldl_visit (h : Sweep g old rest s) (route : List EdgeId)
    {l : List (EdgeId × NodeId)} (hl : ∀ y ∈ l, g.nodes.contains y.2 = true) :
    Sweep g old rest (l.foldl (Search.visit route) s) ∧
      ∀ m, (l.foldl (Search.visit route) s).routes.contains m = true ↔
        s.routes.contains m = true ∨ ∃ y ∈ l, m = y.2 := by
  induction l generalizing s with
  | nil => exact ⟨h, by simp⟩
  | cons y l ih =>
    obtain ⟨hsweep, hmem⟩ := ih (h.visit route (hl y (by simp))) fun z hz => hl z (by simp [hz])
    refine ⟨hsweep, fun m => (hmem m).trans ?_⟩
    rw [contains_visit]
    simp [or_assoc]

theorem Sweep.expand (hg : g.Closed) (h : Sweep g old (n :: rest) s) :
    Sweep g old rest (s.expand g n) := by
  unfold Search.expand
  have hn := h.left n (by simp)
  obtain ⟨route, hroute⟩ := Option.isSome_iff_exists.1 hn
  rw [hroute]
  have hsucc : ∀ y ∈ g.successors n, g.nodes.contains y.2 = true := by
    intro y hy
    obtain ⟨x, hx, -, htarget⟩ := ExplodedGraph.mem_successors.1 hy
    exact htarget ▸ hg.target hx
  obtain ⟨hsweep, hmem⟩ := h.foldl_visit route hsucc
  refine ⟨hsweep.nodes, hsweep.layer, hsweep.fresh, hsweep.grown,
    fun m hm => hsweep.left m (by simp [hm]), fun m hm => ?_⟩
  rcases hsweep.settled m hm with hlayer | hrest | hall
  · exact .inl hlayer
  · rcases List.mem_cons.1 hrest with rfl | hrest
    · exact .inr (.inr fun y hy => (hmem y.2).2 (.inr ⟨y, hy, rfl⟩))
    · exact .inr (.inl hrest)
  · exact .inr (.inr hall)

theorem Sweep.foldl_expand (hg : g.Closed) (h : Sweep g old rest s) :
    Sweep g old [] (rest.foldl (Search.expand g) s) := by
  induction rest generalizing s with
  | nil => exact h
  | cons n rest ih => exact ih (h.expand hg)

/-- The state of a search between two layers. -/
structure Between (g : ExplodedGraph) (s : Search) : Prop where
  nodes : ∀ m, s.routes.contains m = true → g.nodes.contains m = true
  layer : ∀ m ∈ s.layer, s.routes.contains m = true
  settled : ∀ m, s.routes.contains m = true →
    m ∈ s.layer ∨ ∀ y ∈ g.successors m, s.routes.contains y.2 = true

theorem Between.sweep_next (hg : g.Closed) (h : Between g s) :
    Sweep g s.routes [] (s.next g) := by
  have hstart : Sweep g s.routes s.layer { s with layer := [] } :=
    ⟨h.nodes, by simp, by simp, fun _ hm => hm, h.layer, fun m hm => .inr (h.settled m hm)⟩
  exact hstart.foldl_expand hg

theorem Between.next (hg : g.Closed) (h : Between g s) : Between g (s.next g) := by
  have hsweep := h.sweep_next hg
  refine ⟨hsweep.nodes, hsweep.layer, fun m hm => ?_⟩
  rcases hsweep.settled m hm with hlayer | hrest | hall
  · exact .inl hlayer
  · cases hrest
  · exact .inr hall

/-- The number of nodes without a route. -/
def unrouted (g : ExplodedGraph) (s : Search) : Nat :=
  (g.nodes.keys.filter fun m => !s.routes.contains m).length

theorem mem_keys {m : NodeId} (hm : g.nodes.contains m = true) : m ∈ g.nodes.keys :=
  SortedMap.mem_keys_iff.2 (Option.isSome_iff_exists.1 hm)

/-- A layer that is not the last reaches new nodes. -/
theorem Between.unrouted_next_lt (hg : g.Closed) (h : Between g s)
    (hne : (s.next g).layer ≠ []) : (s.next g).unrouted g < s.unrouted g := by
  have hsweep := h.sweep_next hg
  obtain ⟨m, hm⟩ := List.exists_mem_of_ne_nil _ hne
  refine Vocabulary.length_filter_lt (fun k _ hk => ?_)
    (mem_keys (hsweep.nodes m (hsweep.layer m hm))) (by simp [hsweep.layer m hm])
    (by simp [hsweep.fresh m hm])
  cases hold : s.routes.contains k with
  | false => rfl
  | true =>
    rw [hsweep.grown k hold] at hk
    cases hk

/-- Each layer that is not the last takes one of the nodes without a route. -/
theorem Between.fuel_next (hg : g.Closed) (h : Between g s) {fuel : Nat}
    (hfuel : s.unrouted g < fuel + 1) : (s.next g).layer = [] ∨ (s.next g).unrouted g < fuel := by
  by_cases hlayer : (s.next g).layer = []
  · exact .inl hlayer
  · have hlt := h.unrouted_next_lt hg hlayer
    exact .inr (by omega)

/-- With as much fuel as there are nodes without a route, the search ends with an empty layer. -/
theorem Between.layer_run (hg : g.Closed) {fuel : Nat} (h : Between g s)
    (hfuel : s.layer = [] ∨ s.unrouted g < fuel) : (Search.run g fuel s).layer = [] := by
  induction fuel generalizing s with
  | zero => exact hfuel.resolve_right (Nat.not_lt_zero _)
  | succ fuel ih =>
    unfold Search.run
    split
    · rename_i hempty
      exact List.isEmpty_iff.1 hempty
    · rename_i hne
      exact ih (h.next hg) (h.fuel_next hg (hfuel.resolve_left (by simpa using hne)))

/-- With as much fuel as there are nodes without a route, the search ends with routes that are
closed under edges. -/
theorem Between.run (hg : g.Closed) {fuel : Nat} (h : Between g s)
    (hfuel : s.layer = [] ∨ s.unrouted g < fuel) :
    (∀ m, s.routes.contains m = true → (Search.run g fuel s).routes.contains m = true) ∧
      ∀ m, (Search.run g fuel s).routes.contains m = true →
        ∀ y ∈ g.successors m, (Search.run g fuel s).routes.contains y.2 = true := by
  induction fuel generalizing s with
  | zero =>
    have hlayer : s.layer = [] := hfuel.resolve_right (Nat.not_lt_zero _)
    refine ⟨fun _ hm => hm, fun m hm => (h.settled m hm).resolve_left ?_⟩
    simp [hlayer]
  | succ fuel ih =>
    unfold Search.run
    split
    · rename_i hempty
      refine ⟨fun _ hm => hm, fun m hm => (h.settled m hm).resolve_left ?_⟩
      simp [List.isEmpty_iff.1 hempty]
    · rename_i hne
      have hnext := h.fuel_next hg (hfuel.resolve_left (by simpa using hne))
      obtain ⟨hgrown, hclosed⟩ := ih (h.next hg) hnext
      exact ⟨fun m hm => hgrown m ((h.sweep_next hg).grown m hm), hclosed⟩

end Search

namespace ExplodedGraph

variable {g : ExplodedGraph}

theorem between_start (hg : g.Closed) :
    Search.Between g ⟨SortedMap.empty.insert g.entry [], [g.entry]⟩ := by
  have hroutes : ∀ m,
      (SortedMap.empty.insert g.entry ([] : List EdgeId)).contains m = true ↔ m = g.entry := by
    intro m
    rw [SortedMap.contains, SortedMap.get?_insert]
    split
    · simp [*]
    · rename_i hm
      refine iff_of_false ?_ hm
      exact Bool.eq_false_iff.1 (show (∅ : Routes).contains m = false from rfl)
  refine ⟨fun m hm => (hroutes m).1 hm ▸ hg.entry, fun m hm => ?_, fun m hm => ?_⟩
  · exact (hroutes m).2 (List.mem_singleton.1 hm)
  · exact .inl (List.mem_singleton.2 ((hroutes m).1 hm))

/-- The entry is a node, so that fewer nodes than there are have no route at the start. -/
theorem unrouted_start_lt (hg : g.Closed) :
    Search.unrouted g ⟨SortedMap.empty.insert g.entry [], [g.entry]⟩ < g.nodes.size := by
  have hlt := Vocabulary.length_filter_lt
    (p := fun m => !(SortedMap.empty.insert g.entry ([] : List EdgeId)).contains m)
    (q := fun _ => true) (fun _ _ _ => rfl) (Search.mem_keys hg.entry)
    (by simp [SortedMap.contains]) rfl
  rw [List.filter_eq_self.2 fun _ _ => rfl, SortedMap.keys, List.length_map] at hlt
  exact hlt

theorem routes_closed (hg : g.Closed) : g.routes.contains g.entry = true ∧
    ∀ {k x}, g.edges.get? k = some x → g.routes.contains x.source = true →
      g.routes.contains x.target = true := by
  have hentry : (SortedMap.empty.insert g.entry ([] : List EdgeId)).contains g.entry = true := by
    simp [SortedMap.contains]
  obtain ⟨hgrown, hclosed⟩ := (between_start hg).run hg (.inr (unrouted_start_lt hg))
  refine ⟨hgrown _ hentry, fun {k x} hx hsource => ?_⟩
  exact hclosed _ hsource (k, x.target) (mem_successors.2 ⟨x, hx, rfl, rfl⟩)

theorem leads_of_routes {n : NodeId} {route : List EdgeId} (h : g.routes.get? n = some route) :
    g.Leads route n := by
  have hstart : Search.Sound g ⟨SortedMap.empty.insert g.entry [], [g.entry]⟩ := by
    intro m r hr
    rw [SortedMap.get?_insert] at hr
    split at hr
    · rename_i hm
      obtain rfl := Option.some.inj hr
      exact hm ▸ .start
    · cases hr
  exact hstart.run n route h

theorem Closed.contains_of_routes (hg : g.Closed) {n : NodeId}
    (h : g.routes.contains n = true) : g.nodes.contains n = true := by
  obtain ⟨route, hroute⟩ := Option.isSome_iff_exists.1 h
  cases leads_of_routes hroute with
  | start => exact hg.entry
  | extend _ hx => exact hg.target hx

theorem contains_routes_iff (hg : g.Closed) {n : NodeId} :
    g.routes.contains n = true ↔ ∃ route, g.Leads route n := by
  constructor
  · intro h
    obtain ⟨route, hroute⟩ := Option.isSome_iff_exists.1 h
    exact ⟨route, leads_of_routes hroute⟩
  · rintro ⟨route, h⟩
    obtain ⟨hentry, hclosed⟩ := routes_closed hg
    induction h with
    | start => exact hentry
    | extend _ hx ih => exact hclosed hx ih

end ExplodedGraph

end Typestate
