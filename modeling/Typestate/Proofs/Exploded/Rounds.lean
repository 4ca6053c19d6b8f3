import Typestate.Proofs.Exploded.Prune
import Typestate.Proofs.Facts.Inclusion
import Typestate.Proofs.Fixpoint.Restriction

/-!
# One round of pruning is enough

The facts pass never visits a node that pruning removes, so on what a round leaves it finds the
facts that it found before. Each node that is left has possible facts and is reached along edges
that are left. So a round leaves no orphans, a second one removes nothing, and it settles within
the same limit.
-/
namespace Typestate

namespace ExplodedGraph

variable {g : ExplodedGraph} {p : Program} {test : NodeId → Bool} {pass : String} {limit : Nat}
  {facts : FactsSolution}

theorem successors_keep {n : NodeId} (hn : test n = true) :
    (g.keep test).successors n = (g.successors n).filter (test ·.2) := by
  unfold successors keep SortedMap.filter
  rw [List.filter_map, List.filter_filter, List.filter_filter]
  congr 1
  refine List.filter_congr fun x _ => ?_
  by_cases hx : x.2.source = n
  · simp [hx, hn]
  · simp [hx]

theorem restricts_keep (g : ExplodedGraph) (p : Program) (test : NodeId → Bool) :
    (g.factsProblem p).Restricts ((g.keep test).factsProblem p) test where
  entries := rfl
  seed := rfl
  meet := rfl
  successors n hn := successors_keep hn
  transfer n hn e he ht v := by
    obtain ⟨x, hx, rfl, htarget⟩ := mem_successors.1 he
    have hkept := get?_edges_keep.2 ⟨hx, hn, htarget ▸ ht⟩
    simp only [factsProblem, hx, hkept]

theorem preserves_isPossible (g : ExplodedGraph) (p : Program) :
    (g.factsProblem p).Preserves fun _ s => s.isPossible = true where
  seed _ _ := Facts.isPossible_empty
  transfer {n s e t} _ he ht := by
    obtain ⟨x, hx, -⟩ := mem_successors.1 he
    simp only [factsProblem, hx] at ht
    exact (Program.factsFlow_eq_some.1 ht).2
  meet hs _ := Facts.isPossible_meet hs

theorem isSupported_iff (hs : (g.factsProblem p).solve pass limit = .ok facts) {n : NodeId} :
    g.isSupported facts n = true ↔ ∃ s, facts.value n = some s := by
  constructor
  · intro h
    rcases Bool.or_eq_true_iff.1 h with hentry | hany
    · obtain ⟨s, hs, -⟩ := (g.rises_factsProblem p).reaches_seed hs (n := g.entry)
        (by simp [factsProblem])
      exact ⟨s, of_decide_eq_true hentry ▸ hs⟩
    · cases hv : facts.value n with
      | none => simp [hv] at hany
      | some s => exact ⟨s, rfl⟩
  · rintro ⟨s, hv⟩
    simp [isSupported, hv, (g.preserves_isPossible p).solve hs hv]

theorem isSupported_eq (hs : (g.factsProblem p).solve pass limit = .ok facts) :
    g.isSupported facts = fun n => decide (n = g.entry) || (facts.value n).isSome := by
  funext n
  have hentry : n = g.entry → ∃ s, facts.value n = some s := fun hn =>
    (isSupported_iff hs).1 (by simp [isSupported, hn])
  rw [Bool.eq_iff_iff, isSupported_iff hs, Bool.or_eq_true, decide_eq_true_eq,
    Option.isSome_iff_exists]
  exact (or_iff_right_of_imp hentry).symm

theorem contains_routes_of_value (hg : g.Closed)
    (hs : (g.factsProblem p).solve pass limit = .ok facts) {n : NodeId} {s : Facts}
    (hv : facts.value n = some s) : g.routes.contains n = true := by
  obtain ⟨hentry, hclosed⟩ := routes_closed hg
  have hroutes : (g.factsProblem p).Preserves fun n _ => g.routes.contains n = true :=
    { seed := fun n hn => by
        obtain rfl : n = g.entry := by simpa [factsProblem] using hn
        exact hentry
      transfer := fun hn he _ => by
        obtain ⟨x, hx, hsource, htarget⟩ := mem_successors.1 he
        exact htarget ▸ hclosed hx (hsource ▸ hn)
      meet := fun hn _ => hn }
  exact hroutes.solve hs hv

theorem keep_eq_self (hg : g.Closed) (h : ∀ n, g.nodes.contains n = true → test n = true) :
    g.keep test = g := by
  have hnodes : (g.keep test).nodes = g.nodes := SortedMap.ext fun n => by
    refine Option.ext fun x => get?_nodes_keep.trans (and_iff_left_of_imp fun hx => ?_)
    exact h n (Option.isSome_iff_exists.2 ⟨x, hx⟩)
  have hedges : (g.keep test).edges = g.edges := SortedMap.ext fun k => by
    refine Option.ext fun x => get?_edges_keep.trans (and_iff_left_of_imp fun hx => ?_)
    exact ⟨h _ (hg.source hx), h _ (hg.target hx)⟩
  calc g.keep test = ⟨(g.keep test).nodes, (g.keep test).edges, g.entry⟩ := rfl
    _ = g := by rw [hnodes, hedges]

/-- On the nodes that have facts the facts pass finds the same facts, within the same limit. -/
theorem solve_keep_isSupported (hs : (g.factsProblem p).solve pass limit = .ok facts) :
    ∃ facts', ((g.keep (g.isSupported facts)).factsProblem p).solve pass limit = .ok facts' ∧
      ∀ n, facts'.value n = facts.value n :=
  (restricts_keep g p (g.isSupported facts)).solve hs
    fun _ v hv => (isSupported_iff hs).2 ⟨v, hv⟩

theorem Closed.keep_isSupported (hg : g.Closed) (facts : FactsSolution) :
    (g.keep (g.isSupported facts)).Closed :=
  hg.keep (by simp [isSupported])

theorem exists_value_of_contains_keep (hs : (g.factsProblem p).solve pass limit = .ok facts)
    {facts' : FactsSolution} (hvalue : ∀ n, facts'.value n = facts.value n) {n : NodeId}
    (hn : (g.keep (g.isSupported facts)).nodes.contains n = true) :
    ∃ s, facts'.value n = some s := by
  obtain ⟨x, hx⟩ := Option.isSome_iff_exists.1 hn
  rw [hvalue]
  exact (isSupported_iff hs).1 (get?_nodes_keep.1 hx).2

/-- A round removes the nodes without facts and leaves no orphans. -/
theorem pruneBy_eq_keep (hg : g.Closed)
    (hs : (g.factsProblem p).solve pass limit = .ok facts) :
    (g.pruneBy facts).1 = g.keep (g.isSupported facts) := by
  obtain ⟨facts', hs', hvalue⟩ := solve_keep_isSupported hs
  have hleft := hg.keep_isSupported facts
  refine keep_eq_self hleft fun n hn => ?_
  obtain ⟨s, hv⟩ := exists_value_of_contains_keep hs hvalue hn
  exact contains_routes_of_value hleft hs' hv

theorem pruneBy_eq (hg : g.Closed) (hs : (g.factsProblem p).solve pass limit = .ok facts) :
    g.pruneBy facts = (g.keep (g.isSupported facts),
      ⟨1, g.nodes.size - (g.keep (g.isSupported facts)).nodes.size, 0, facts.iterations⟩) := by
  have hleft := pruneBy_eq_keep hg hs
  have horphans : (g.keep (g.isSupported facts)).nodes.size -
      (g.pruneBy facts).1.nodes.size = 0 := by
    rw [hleft, Nat.sub_self]
  exact Prod.ext hleft (congrArg (PruneStats.mk 1 _ · _) horphans)

theorem prune_of_values (hg : g.Closed)
    (hs : (g.factsProblem p).solve "exploded-facts" limit = .ok facts)
    (h : ∀ n, g.nodes.contains n = true → ∃ s, facts.value n = some s) (rounds : Nat) :
    g.prune p limit (rounds + 1) = .ok (g, ⟨1, 0, 0, facts.iterations⟩) := by
  have hkeep : g.keep (g.isSupported facts) = g :=
    keep_eq_self hg fun n hn => (isSupported_iff hs).2 (h n hn)
  have hround := pruneBy_eq hg hs
  rw [hkeep, Nat.sub_self] at hround
  unfold prune
  rw [hs]
  simp only [bind, Except.bind, hround, if_true]
  rfl

theorem prune_keep_isSupported (hg : g.Closed)
    (hs : (g.factsProblem p).solve "exploded-facts" limit = .ok facts) :
    ∃ visits, ∀ rounds, (g.keep (g.isSupported facts)).prune p limit (rounds + 1) =
      .ok (g.keep (g.isSupported facts), ⟨1, 0, 0, visits⟩) := by
  obtain ⟨facts', hs', hvalue⟩ := solve_keep_isSupported hs
  refine ⟨facts'.iterations, prune_of_values (hg.keep_isSupported facts) hs' fun n hn => ?_⟩
  exact exists_value_of_contains_keep hs hvalue hn

/-- From one round on, the graph that pruning leaves does not depend on the rounds, and no more
than two are run. -/
theorem prune_eq (hg : g.Closed)
    (hs : (g.factsProblem p).solve "exploded-facts" limit = .ok facts) (rounds : Nat) :
    ∃ done visits, done ≤ 2 ∧ g.prune p limit (rounds + 1) =
      .ok (g.keep (g.isSupported facts),
        ⟨done, g.nodes.size - (g.keep (g.isSupported facts)).nodes.size, 0, visits⟩) := by
  obtain ⟨visits, hmore⟩ := prune_keep_isSupported hg hs
  unfold prune
  rw [hs]
  simp only [bind, Except.bind, pruneBy_eq hg hs]
  split
  · exact ⟨1, _, by omega, rfl⟩
  · cases rounds with
    | zero => exact ⟨1, _, by omega, rfl⟩
    | succ rounds =>
      rw [hmore]
      exact ⟨2, _, by omega, rfl⟩

theorem contains_keep_isSupported_iff (hg : g.Closed)
    (hs : (g.factsProblem p).solve pass limit = .ok facts) {n : NodeId} :
    (g.keep (g.isSupported facts)).nodes.contains n = true ↔
      n = g.entry ∨ ∃ s, facts.value n = some s := by
  constructor
  · intro hn
    obtain ⟨x, hx⟩ := Option.isSome_iff_exists.1 hn
    exact .inr ((isSupported_iff hs).1 (get?_nodes_keep.1 hx).2)
  · rintro (rfl | ⟨s, hv⟩)
    · exact (hg.keep_isSupported facts).entry
    · exact contains_keep (hg.contains_of_routes (contains_routes_of_value hg hs hv))
        ((isSupported_iff hs).2 ⟨s, hv⟩)

/-- One round of pruning is enough: what is left are the entry and the nodes that the facts pass
over the graph finds facts for, and the entry reaches them all. Another round removes nothing, so
any number of rounds leaves the same. -/
theorem prune_settles (hg : g.Closed) {rounds : Nat} (hrounds : 1 ≤ rounds)
    {left : ExplodedGraph} {stats : PruneStats}
    (h : g.prune p limit rounds = .ok (left, stats)) :
    ∃ facts, (g.factsProblem p).solve "exploded-facts" limit = .ok facts ∧
      left = g.keep (fun n => n = g.entry || (facts.value n).isSome) ∧
      (∀ n, left.nodes.contains n = true ↔ n = g.entry ∨ ∃ s, facts.value n = some s) ∧
      (∀ n, left.nodes.contains n = true → ∃ route, left.Leads route n) ∧
      stats.rounds ≤ 2 ∧ stats.orphaned = 0 ∧
      stats.infeasible = g.nodes.size - left.nodes.size ∧
      (∃ visits, ∀ more, left.prune p limit (more + 1) = .ok (left, ⟨1, 0, 0, visits⟩)) ∧
      ∀ rounds', 1 ≤ rounds' → ∃ stats', g.prune p limit rounds' = .ok (left, stats') := by
  obtain ⟨rounds, rfl⟩ := Nat.exists_eq_add_of_le' hrounds
  cases hs : (g.factsProblem p).solve "exploded-facts" limit with
  | error fault =>
    unfold prune at h
    rw [hs] at h
    cases h
  | ok facts =>
    obtain ⟨done, visits, hdone, hprune⟩ := prune_eq hg hs rounds
    rw [hprune] at h
    cases h
    have hleft := hg.keep_isSupported facts
    refine ⟨facts, rfl, congrArg g.keep (isSupported_eq hs),
      fun n => contains_keep_isSupported_iff hg hs, fun n hn => ?_, hdone, rfl, rfl,
      prune_keep_isSupported hg hs, fun rounds' hrounds' => ?_⟩
    · obtain ⟨facts', hs', hvalue⟩ := solve_keep_isSupported hs
      obtain ⟨s, hv⟩ := exists_value_of_contains_keep hs hvalue hn
      exact (contains_routes_iff hleft).1 (contains_routes_of_value hleft hs' hv)
    · obtain ⟨rounds', rfl⟩ := Nat.exists_eq_add_of_le' hrounds'
      obtain ⟨done', visits', -, hprune'⟩ := prune_eq hg hs rounds'
      exact ⟨_, hprune'⟩

/-- The program `x = 1; if (x == 0) ;`, with an empty loop that nothing leads to. -/
def contradicting : Program :=
  let x : Variable := ⟨"x", some 0, .localVar, .integer⟩
  let node (kind : NodeKind) (stmt : Option Statement) : Node := ⟨some 0, kind, stmt, none⟩
  { nodes := #[⟨none, .root, none, none⟩, node .entry none, node .exit none,
      node .statement (some (.assign (.var x) (.use (.lit 1)))),
      node .statement (some (.cond (.var x) .eq (.lit 0))), node .statement (some .nop),
      node .statement (some .nop)]
    edges := #[⟨1, 3, .flow .always⟩, ⟨3, 4, .flow .always⟩, ⟨4, 5, .flow (.branch true)⟩,
      ⟨4, 2, .flow (.branch false)⟩, ⟨5, 2, .flow .always⟩, ⟨6, 6, .flow .always⟩,
      ⟨6, 2, .flow .always⟩, ⟨0, 1, .root⟩]
    functions := #[⟨0, "main", [], [x], 1, 2, none, none, none⟩]
    globals := [] }

/-- The graph of a program as an exploded graph in which no node is split. -/
def unsplit (p : Program) : ExplodedGraph where
  nodes := .enumerate ((List.range p.nodes.size).map fun n => ⟨n, .solo, n, ∅⟩)
  edges := .enumerate (p.edges.toList.zipIdx.map fun (edge, e) => ⟨edge.source, edge.target, e, []⟩)
  entry := Program.root

/-- Of `contradicting` the branch that cannot be taken is removed, and so is the loop. -/
theorem prune_settles_contradicting : ∃ left stats facts,
    (unsplit contradicting).Closed ∧ (unsplit contradicting).nodes.size = 7 ∧
    (unsplit contradicting).prune contradicting 10 3 = .ok (left, stats) ∧
    ((unsplit contradicting).factsProblem contradicting).solve "exploded-facts" 10 = .ok facts ∧
    (∀ n, left.nodes.contains n = true ↔ n = Program.root ∨ ∃ s, facts.value n = some s) ∧
    left.nodes.keys = [0, 1, 2, 3, 4] ∧ stats.rounds = 2 ∧ stats.orphaned = 0 := by
  have hg : (unsplit contradicting).Closed := by decide +kernel
  cases hprune : (unsplit contradicting).prune contradicting 10 3 with
  | error fault =>
    have hok : ((unsplit contradicting).prune contradicting 10 3).isOk = true := by decide +kernel
    rw [hprune] at hok
    cases hok
  | ok result =>
    obtain ⟨left, stats⟩ := result
    obtain ⟨facts, hs, -, hleft, -, -, horphaned, -⟩ := prune_settles hg (by decide) hprune
    have htest : ((unsplit contradicting).prune contradicting 10 3).toOption.any (fun x =>
        x.1.nodes.keys = [0, 1, 2, 3, 4] && x.2.rounds = 2) = true := by decide +kernel
    rw [hprune] at htest
    obtain ⟨hkeys, hrounds⟩ := Bool.and_eq_true_iff.1 htest
    exact ⟨left, stats, facts, hg, rfl, rfl, hs, hleft, of_decide_eq_true hkeys,
      of_decide_eq_true hrounds, horphaned⟩

end ExplodedGraph

end Typestate
