import Typestate.Proofs.Suppression

/-!
# What the target of a finding stands for

An exploded node narrows one class to one state and leaves the states of the others as they are.
So the target of a reported finding is in the finding's state alone if a node for this state of
the finding's class is left. If none is left though the class was split, the only targets are
nodes that another class was split for, at which the finding's state is one of several.
-/
namespace Typestate

namespace NodeStates

variable {v : NodeStates} {c : EquivClass} {s : States} {t : State} {e : Expr}

theorem classOf_restrict (hs : v.map.get? c = some s) :
    (v.restrict c t).classOf e = v.classOf e := by
  rw [classOf_eq_find?, classOf_eq_find?, keys_restrict hs]

theorem statesOf_restrict {d : EquivClass} (hs : v.map.get? c = some s)
    (hd : v.classOf e = some d) : (v.restrict c t).statesOf e =
      if d = c then some (.singleton t) else v.statesOf e := by
  rw [statesOf_eq_bind, classOf_restrict hs, statesOf_eq_bind, hd, Option.bind_some,
    Option.bind_some, get?_restrict]

/-- Whether the state of a finding is one of several of its class, so that the value is exploded
into a node for this state, too. -/
def Splits (v : NodeStates) (f : Finding) : Prop :=
  ∃ s, v.map.get? f.cls = some s ∧ f.state ∈ s ∧ 1 < s.size

instance {f : Finding} : Decidable (v.Splits f) :=
  inferInstanceAs (Decidable (∃ s ∈ v.map.get? f.cls, f.state ∈ s ∧ 1 < s.size))

end NodeStates

namespace ExplodedNode

open NodeStates

variable {v : NodeStates} {n : NodeId} {x : ExplodedNode} {c : EquivClass} {t : State} {e : Expr}
  {f : Finding}

theorem isFor_iff : x.isFor c t = true ↔ x.kind = .statewise c t := decide_eq_true_iff

section Explode

variable (hx : x ∈ v.explode n)
include hx

theorem classOf_of_mem_explode : x.states.classOf e = v.classOf e := by
  obtain rfl | ⟨c, s, t, hs, -, -, rfl⟩ := eq_of_mem_explode hx
  · rfl
  · exact classOf_restrict hs

theorem split_of_kind (hkind : x.kind = .statewise c t) :
    ∃ s, v.map.get? c = some s ∧ 1 < s.size ∧ x.states = v.restrict c t := by
  obtain rfl | ⟨c', s, t', hs, hsize, -, rfl⟩ := eq_of_mem_explode hx <;> cases hkind
  exact ⟨s, hs, hsize, rfl⟩

theorem exists_kind_of_splits (hsplit : v.Splits f) :
    ∃ c s t, v.map.get? c = some s ∧ 1 < s.size ∧ x.kind = .statewise c t := by
  obtain ⟨s, hs, -, hsize⟩ := hsplit
  have hambiguous : v.isUnambiguous = false :=
    Bool.eq_false_iff.2 fun h => Nat.not_lt.2 (isUnambiguous_iff.1 h f.cls s hs) hsize
  obtain ⟨c, u, hu, hlt, t, -, rfl⟩ := (mem_explode_of_ambiguous hambiguous).1 hx
  exact ⟨c, u, t, hu, hlt, rfl⟩

/-- Where the class of an expression is narrowed to a state, the expression is in that state. -/
theorem statesOf_of_kind (hc : v.classOf e = some c) (hkind : x.kind = .statewise c t) :
    x.states.statesOf e = some (.singleton t) := by
  obtain ⟨s, hs, -, hstates⟩ := split_of_kind hx hkind
  rw [hstates, statesOf_restrict hs hc, if_pos rfl]

/-- Where the class of an expression is not narrowed, the expression has the states it had. -/
theorem statesOf_of_kind_ne (hc : v.classOf e = some c) (hkind : ∀ t, x.kind ≠ .statewise c t) :
    x.states.statesOf e = v.statesOf e := by
  obtain rfl | ⟨d, s, t, hs, -, -, rfl⟩ := eq_of_mem_explode hx
  · rfl
  · have hd : c ≠ d := by
      rintro rfl
      exact hkind t rfl
    rw [statesOf_restrict hs hc, if_neg hd]

variable (hc : v.classOf f.expr = some f.cls)
include hc

theorem standsFor_iff : x.standsFor f = true ↔ x.kind = .statewise f.cls f.state := by
  rw [standsFor, classOf_of_mem_explode hx, hc, Option.any_some, Bool.or_self, isFor_iff]

/-- A node has the state of a finding alone if it stands for it, or if the expression has no other
state at all. -/
theorem statesOf_eq_singleton_iff : x.states.statesOf f.expr = some (.singleton f.state) ↔
    x.kind = .statewise f.cls f.state ∨ v.statesOf f.expr = some (.singleton f.state) := by
  by_cases hkind : ∃ t, x.kind = .statewise f.cls t
  · obtain ⟨t, ht⟩ := hkind
    obtain ⟨s, hs, hsize, -⟩ := split_of_kind hx ht
    have hseveral : v.statesOf f.expr ≠ some (.singleton f.state) := by
      rw [statesOf_eq_bind, hc, Option.bind_some, hs]
      intro h
      rw [Option.some.inj h] at hsize
      exact Nat.lt_irrefl _ hsize
    rw [statesOf_of_kind hx hc ht, ht, or_iff_left hseveral]
    constructor
    · intro h
      have hmem : t ∈ SortedSet.singleton f.state :=
        Option.some.inj h ▸ SortedSet.mem_singleton.2 rfl
      rw [SortedSet.mem_singleton.1 hmem]
    · intro h
      cases h
      rfl
  · rw [statesOf_of_kind_ne hx hc fun t ht => hkind ⟨t, ht⟩]
    exact (or_iff_right fun h => hkind ⟨_, h⟩).symm

/-- A node that does not stand for a finding, though there are such nodes, holds its state just if
its class is not narrowed. -/
theorem holds_iff (hsplit : v.Splits f) (hkind : x.kind ≠ .statewise f.cls f.state) :
    x.holds f = true ↔ ¬ ∃ t, x.kind = .statewise f.cls t := by
  obtain ⟨s, hs, hmem, -⟩ := hsplit
  unfold holds
  constructor
  · rintro h ⟨t, ht⟩
    rw [statesOf_of_kind hx hc ht, Option.any_some, decide_eq_true_iff] at h
    exact hkind (SortedSet.mem_singleton.1 h ▸ ht)
  · intro h
    rw [statesOf_of_kind_ne hx hc fun t ht => h ⟨t, ht⟩, statesOf_eq_bind, hc, Option.bind_some,
      hs, Option.any_some]
    exact decide_eq_true hmem

end Explode

end ExplodedNode

namespace ExplodedGraph

open NodeStates ExplodedNode

variable {g : ExplodedGraph} {f : Finding} {i j n : NodeId} {x : ExplodedNode}

/-- An exploded node for a node of the program that a graph has and that its edges lead to. -/
structure ReachedAt (g : ExplodedGraph) (n i : NodeId) (x : ExplodedNode) : Prop where
  live : g.nodes.get? i = some x
  node : x.node = n
  reached : ∃ route, g.Leads route i

/-- Whether a node for the state of a finding in its class is reached. -/
def Represents (g : ExplodedGraph) (f : Finding) : Prop :=
  ∃ i x, g.ReachedAt f.node i x ∧ x.kind = .statewise f.cls f.state

theorem reachedAt_of_closest? {test : ExplodedNode → Bool}
    (h : g.closest? g.routes f test = some i) :
    ∃ x, g.ReachedAt f.node i x ∧ test x = true := by
  obtain ⟨hr, x, hx, hnode, htest⟩ := closest?_spec h
  obtain ⟨route, hroute⟩ := Option.isSome_iff_exists.1 hr
  exact ⟨x, ⟨hx, hnode, route, leads_of_routes hroute⟩, htest⟩

theorem exists_reachedAt_of_target? (h : g.target? g.routes f = some j) :
    ∃ x, g.ReachedAt f.node j x := by
  rcases Option.or_eq_some_iff.1 h with hfor | ⟨-, hholds⟩
  · exact (reachedAt_of_closest? hfor).imp fun _ hx => hx.1
  · exact (reachedAt_of_closest? hholds).imp fun _ hx => hx.1

/-- The target of a finding stands for it, or else no node does. -/
theorem standsFor_target? (hg : g.Closed) (h : g.target? g.routes f = some j)
    (hx : g.nodes.get? j = some x) : x.standsFor f = true ∨
      ∀ i y, g.ReachedAt f.node i y → y.standsFor f ≠ true := by
  rcases Option.or_eq_some_iff.1 h with hfor | ⟨hnone, -⟩
  · obtain ⟨y, hy, hstands⟩ := reachedAt_of_closest? hfor
    obtain rfl : x = y := Option.some.inj (hx.symm.trans hy.live)
    exact .inl hstands
  · refine .inr fun i y hy hstands => ?_
    obtain ⟨k, hk⟩ := exists_closest? (·.standsFor f) hy.live hy.node
      ((contains_routes_iff hg).2 hy.reached) hstands
    rw [hnone] at hk
    cases hk

theorem exists_target?_of_report? {r : Routes} {p : Program} {machine : String} {withNotes : Bool}
    {report : Report} (h : g.report? p r machine withNotes f = some report) :
    ∃ j, g.target? r f = some j :=
  Option.isSome_iff_exists.1 (isSome_report?.symm.trans (Option.isSome_iff_exists.2 ⟨report, h⟩))

theorem shows_iff (hg : g.Closed) : g.Shows g.routes f ↔
    ∃ i x, g.ReachedAt f.node i x ∧ (x.standsFor f = true ∨ x.holds f = true) := by
  constructor
  · rintro ⟨i, x, hx, hnode, hr, hstate⟩
    exact ⟨i, x, ⟨hx, hnode, (contains_routes_iff hg).1 hr⟩, hstate⟩
  · rintro ⟨i, x, hx, hstate⟩
    exact ⟨i, x, hx.live, hx.node, (contains_routes_iff hg).2 hx.reached, hstate⟩

section Classes

variable {v : NodeStates} (hg : g.Closed)
  (hmem : ∀ {i x}, g.ReachedAt f.node i x → x ∈ v.explode f.node)
  (hc : v.classOf f.expr = some f.cls)
include hg hmem hc

/-- The target of a finding has its state alone if some node stands for it, or if the expression
has no other state at all. -/
theorem statesOf_target_iff (h : g.target? g.routes f = some j) (hx : g.nodes.get? j = some x) :
    x.states.statesOf f.expr = some (.singleton f.state) ↔
      g.Represents f ∨ v.statesOf f.expr = some (.singleton f.state) := by
  obtain ⟨y, hy⟩ := exists_reachedAt_of_target? h
  obtain rfl : x = y := Option.some.inj (hx.symm.trans hy.live)
  rw [statesOf_eq_singleton_iff (hmem hy) hc]
  refine or_congr_left ⟨fun hkind => ⟨j, x, hy, hkind⟩, ?_⟩
  rintro ⟨i, z, hz, hkind⟩
  refine (standsFor_iff (hmem hy) hc).1 ((standsFor_target? hg h hx).resolve_right fun hnone => ?_)
  exact hnone i z hz ((standsFor_iff (hmem hz) hc).2 hkind)

/-- If a class was split and no node for the state of a finding is left, the finding is shown by
the nodes that other classes were split for, and by no others. -/
theorem not_shows_iff_of_splits (hsplit : v.Splits f) (hnone : ¬ g.Represents f) :
    ¬ g.Shows g.routes f ↔
      ∀ i x, g.ReachedAt f.node i x → ∃ t, x.kind = .statewise f.cls t := by
  have hkind : ∀ {i x}, g.ReachedAt f.node i x → x.kind ≠ .statewise f.cls f.state :=
    fun hx hkind => hnone ⟨_, _, hx, hkind⟩
  rw [shows_iff hg]
  constructor
  · intro h i x hx
    refine Classical.byContradiction fun hother => h ⟨i, x, hx, .inr ?_⟩
    exact (holds_iff (hmem hx) hc hsplit (hkind hx)).2 hother
  · rintro h ⟨i, x, hx, hstands | hholds⟩
    · exact hkind hx ((standsFor_iff (hmem hx) hc).1 hstands)
    · exact (holds_iff (hmem hx) hc hsplit (hkind hx)).1 hholds (h i x hx)

end Classes

end ExplodedGraph

namespace Analysis

open ExplodedGraph

variable {p : Program} {m : Automaton} {s : Settings} {a : Analysis} {r : RunReport}

/-- The target of a reported finding is part of the pruned graph, edges lead to it from the entry,
and it stands for the node of the finding. For a finding in the class of its expression, it has the
finding's state alone just if a node for this state is left, or if the expression has no other state
at all. If the class was split and no such node is left, the finding is suppressed just if all nodes
left were split for the same class, so always if no other class is in several states there. -/
theorem run_targets_states (ha : solve p m s.maxVisits = .ok a)
    (hrun : run p m s = .ok (.analyzed r)) :
    ∃ g stats, (a.refine s).1 = .ok (.pruned g stats) ∧ r = (a.refine s).2.conclude s g stats ∧
      ∀ f : Finding,
        (∀ report, g.report? p g.routes m.name s.notes f = some report →
          ∃ j x, g.target? g.routes f = some j ∧ g.ReachedAt f.node j x) ∧
        ∀ v, a.statesAt f.node = some v → v.classOf f.expr = some f.cls →
          (∀ j x, g.target? g.routes f = some j → g.nodes.get? j = some x →
            (x.states.statesOf f.expr = some (.singleton f.state) ↔
              g.Represents f ∨ v.statesOf f.expr = some (.singleton f.state))) ∧
          (f ∈ (a.refine s).2.log.findings → v.Splits f → ¬ g.Represents f →
            (f ∈ r.suppressed ↔
              ∀ i x, g.ReachedAt f.node i x → ∃ t, x.kind = .statewise f.cls t) ∧
            ((∀ c u, v.map.get? c = some u → 1 < u.size → c = f.cls) → f ∈ r.suppressed)) := by
  obtain ⟨g, stats, hpruned, rfl⟩ := run_eq_analyzed ha hrun
  obtain ⟨built, incidents, hbuilt, hprune, -⟩ := refine_eq_pruned hpruned
  obtain ⟨hg, hnodes⟩ := closed_prune (StatesContext.closed_explode hbuilt) hprune
  refine ⟨g, stats, hpruned, rfl, fun f => ⟨fun report hreport => ?_, fun v hv hc => ?_⟩⟩
  · obtain ⟨j, hj⟩ := exists_target?_of_report? hreport
    obtain ⟨x, hx⟩ := exists_reachedAt_of_target? hj
    exact ⟨j, x, hj, hx⟩
  have hmem : ∀ {i x}, g.ReachedAt f.node i x → x ∈ v.explode f.node := by
    intro i x hx
    obtain ⟨w, hw, hmem⟩ := StatesContext.exists_value_of_get?_nodes hbuilt (hnodes hx.live)
    rw [hx.node] at hw hmem
    exact Option.some.inj (hv.symm.trans hw) ▸ hmem
  refine ⟨fun j x hj hx => statesOf_target_iff hg hmem hc hj hx, fun hf hsplit hnone => ?_⟩
  have hiff : f ∈ ((a.refine s).2.conclude s g stats).suppressed ↔
      ∀ i x, g.ReachedAt f.node i x → ∃ t, x.kind = .statewise f.cls t :=
    (mem_suppressed_iff hf).trans (not_shows_iff_of_splits hg hmem hc hsplit hnone)
  refine ⟨hiff, fun honly => hiff.2 fun i x hx => ?_⟩
  obtain ⟨c, u, t, hu, hsize, hkind⟩ := ExplodedNode.exists_kind_of_splits (hmem hx) hsplit
  exact ⟨t, honly c u hu hsize ▸ hkind⟩

/-- The program `if (*) { x = 1; p = malloc(8); } else q = malloc(8);` that goes on with
`if (x == 0) use(p); else { use(p); abort(); }`, and the same with an empty statement in place of
the second allocation. -/
def branching (both : Bool) : Program :=
  let x : Variable := ⟨"x", some 0, .param, .integer⟩
  let p : Variable := ⟨"p", some 0, .param, .pointer⟩
  let q : Variable := ⟨"q", some 0, .param, .pointer⟩
  let node (kind : NodeKind) : Node := ⟨some 0, kind, none, none⟩
  let stmt (stmt : Statement) (line : Nat) : Node :=
    ⟨some 0, .statement, some stmt, some ⟨"test.c", line, 3⟩⟩
  { nodes := #[⟨none, .root, none, none⟩, node .entry, node .exit,
      stmt (.assign (.var x) (.use (.lit 1))) 2, stmt (.call (some (.var p)) "malloc" [.lit 8]) 3,
      stmt (if both then .call (some (.var q)) "malloc" [.lit 8] else .nop) 5,
      stmt (.cond (.var x) .eq (.lit 0)) 6, stmt (.call none "use" [.var p]) 7,
      stmt (.call none "use" [.var p]) 8, stmt (.call none "abort" []) 9]
    edges := #[⟨1, 3, .flow .always⟩, ⟨3, 4, .flow .always⟩, ⟨4, 6, .flow .always⟩,
      ⟨1, 5, .flow .always⟩, ⟨5, 6, .flow .always⟩, ⟨6, 7, .flow (.branch true)⟩,
      ⟨6, 8, .flow (.branch false)⟩, ⟨7, 2, .flow .always⟩, ⟨8, 9, .flow .always⟩, ⟨0, 1, .root⟩]
    functions := #[⟨0, "test", [x, p, q], [], 1, 2, none, some ⟨"test.c", 1, 1⟩,
      some ⟨"test.c", 10, 1⟩⟩]
    globals := [] }

def uses : Automaton :=
  let ptr : Decl := ⟨"ptr", .anyPointer, true, none⟩
  let machine : Machine :=
    { name := "uses"
      clauses := [.decl ptr,
        .states ⟨["ptr.start"], [⟨.shape (.callResult (.decl "ptr") "malloc"),
          [.goto (.named "ptr.unknown")], none⟩], none⟩,
        .states ⟨["ptr.unknown"], [⟨.shape (.callArgs "use" [.decl "ptr"]),
          [.error "use of \x7bptr\x7d" none], none⟩], none⟩] }
  machine.automaton ptr

/-- Whether a finding is in the class of its expression, and its state is one of several there. -/
def isSplit (a : Analysis) (f : Finding) : Bool :=
  (a.statesAt f.node).any fun v =>
    decide (v.classOf f.expr = some f.cls) && decide (v.Splits f)

/-- Whether no node of a graph stands for the state of a finding in its class. -/
def isUnrepresented (g : ExplodedGraph) (f : Finding) : Bool :=
  g.nodes.entries.all fun (_, x) => !(decide (x.node = f.node) && x.isFor f.cls f.state)

theorem exists_of_isSplit {f : Finding} (h : a.isSplit f = true) :
    ∃ v, a.statesAt f.node = some v ∧ v.classOf f.expr = some f.cls ∧ v.Splits f := by
  obtain ⟨v, hv, htest⟩ := (Option.any_eq_true _ _).1 h
  obtain ⟨hc, hsplit⟩ := Bool.and_eq_true_iff.1 htest
  exact ⟨v, hv, of_decide_eq_true hc, of_decide_eq_true hsplit⟩

theorem kind_ne_of_isUnrepresented {g : ExplodedGraph} {f : Finding}
    (h : isUnrepresented g f = true) {i : NodeId} {x : ExplodedNode}
    (hx : g.nodes.get? i = some x) (hnode : x.node = f.node) :
    x.kind ≠ .statewise f.cls f.state := by
  intro hkind
  have hx := List.all_eq_true.1 h (i, x) (SortedMap.mem_entries_iff.2 hx)
  simp [hnode, ExplodedNode.isFor_iff.2 hkind] at hx

/-- Whether a use of `p` where `x` is 0 cannot be told from the graph, but no other class is split
there, and a use where `x` is not 0 has a target that stands for it. -/
def tellsUsesApart (a : Analysis) (g : ExplodedGraph) (l : List Finding) : Bool :=
  (l.any fun f => decide (f.node = 7) && a.isSplit f && isUnrepresented g f &&
    (a.statesAt f.node).any fun v =>
      v.map.entries.all fun entry => decide (1 < entry.2.size → entry.1 = f.cls)) &&
  l.any fun f => decide (f.node = 8) && a.isSplit f &&
    (g.target? g.routes f).any fun j => (g.nodes.get? j).any (·.isFor f.cls f.state)

/-- If `q` is never allocated, the use of `p` where `x` is 0 is suppressed, and the target of the
other use is in exactly the state that was found. -/
theorem run_targets_states_branching : ∃ a r g stats f f' j x,
    solve (branching false) uses (Settings.ofPreset .fast).maxVisits = .ok a ∧
    run (branching false) uses (.ofPreset .fast) = .ok (.analyzed r) ∧
    (a.refine (.ofPreset .fast)).1 = .ok (.pruned g stats) ∧ f.node = 7 ∧ f ∈ r.suppressed ∧
    f'.node = 8 ∧ g.target? g.routes f' = some j ∧ g.nodes.get? j = some x ∧
    x.states.statesOf f'.expr = some (.singleton f'.state) := by
  obtain ⟨a, g, stats, ha, hpruned, hrun, htest⟩ := exists_of_stages
    (p := branching false) (m := uses) (s := .ofPreset .fast) (by decide) tellsUsesApart
    (by decide +kernel)
  obtain ⟨halone, hother⟩ := Bool.and_eq_true_iff.1 htest
  obtain ⟨f, hf, halone⟩ := List.any_eq_true.1 halone
  obtain ⟨f', -, hother⟩ := List.any_eq_true.1 hother
  simp only [Bool.and_eq_true, decide_eq_true_eq] at halone hother
  obtain ⟨⟨⟨hnode, hsplit⟩, hnone⟩, honly⟩ := halone
  obtain ⟨⟨hnode', hsplit'⟩, htarget⟩ := hother
  obtain ⟨g', stats', hpruned', -, hall⟩ := run_targets_states ha hrun
  obtain rfl : g = g' := by
    have heq := hpruned.symm.trans hpruned'
    cases heq
    rfl
  obtain ⟨v, hv, hc, hsplit⟩ := exists_of_isSplit hsplit
  obtain ⟨v', hv', hc', -⟩ := exists_of_isSplit hsplit'
  obtain ⟨j, hj, htarget⟩ := (Option.any_eq_true _ _).1 htarget
  obtain ⟨x, hx, hfor⟩ := (Option.any_eq_true _ _).1 htarget
  refine ⟨a, _, g, stats, f, f', j, x, ha, hrun, hpruned, hnode, ?_, hnode', hj, hx, ?_⟩
  · have hlost : ¬ g.Represents f := by
      rintro ⟨i, y, hy, hkind⟩
      exact kind_ne_of_isUnrepresented hnone hy.live hy.node hkind
    refine (((hall f).2 v hv hc).2 hf hsplit hlost).2 fun c u hu => ?_
    rw [hv, Option.any_some] at honly
    exact of_decide_eq_true (List.all_eq_true.1 honly (c, u) (SortedMap.mem_entries_iff.2 hu))
  · obtain ⟨y, hy⟩ := exists_reachedAt_of_target? hj
    obtain rfl : x = y := Option.some.inj (hx.symm.trans hy.live)
    exact (((hall f').2 v' hv' hc').1 j x hj hx).2 (.inl ⟨j, x, hy, ExplodedNode.isFor_iff.1 hfor⟩)

/-- Whether a use of `p` where `x` is 0 has a target though no node stands for it. -/
def reportsLostUse (a : Analysis) (g : ExplodedGraph) (l : List Finding) : Bool :=
  l.any fun f => decide (f.node = 7) && a.isSplit f && isUnrepresented g f &&
    (g.target? g.routes f).any fun j => (g.nodes.get? j).any fun x =>
      decide (x.states.statesOf f.expr ≠ some (.singleton f.state))

/-- If `q` may be allocated too, a node for a state of `q` is left at the use of `p` where `x` is 0.
The use is reported with it as the target, though the node does not tell the state of `p`, and no
node does. -/
theorem branching_reports_lost : ∃ a r g stats f report j x,
    solve (branching true) uses (Settings.ofPreset .fast).maxVisits = .ok a ∧
    run (branching true) uses (.ofPreset .fast) = .ok (.analyzed r) ∧
    (a.refine (.ofPreset .fast)).1 = .ok (.pruned g stats) ∧
    f ∈ (a.refine (.ofPreset .fast)).2.log.findings ∧
    (∃ v, a.statesAt f.node = some v ∧ v.classOf f.expr = some f.cls ∧ v.Splits f) ∧
    (∀ i x, g.nodes.get? i = some x → x.node = f.node → x.kind ≠ .statewise f.cls f.state) ∧
    g.report? (branching true) g.routes uses.name (Settings.ofPreset .fast).notes f = some report ∧
    f ∉ r.suppressed ∧ g.target? g.routes f = some j ∧ g.nodes.get? j = some x ∧
    x.states.statesOf f.expr ≠ some (.singleton f.state) := by
  obtain ⟨a, g, stats, ha, hpruned, hrun, htest⟩ := exists_of_stages
    (p := branching true) (m := uses) (s := .ofPreset .fast) (by decide) reportsLostUse
    (by decide +kernel)
  obtain ⟨f, hf, htest⟩ := List.any_eq_true.1 htest
  simp only [Bool.and_eq_true, decide_eq_true_eq] at htest
  obtain ⟨⟨⟨-, hsplit⟩, hnone⟩, htarget⟩ := htest
  obtain ⟨j, hj, htarget⟩ := (Option.any_eq_true _ _).1 htarget
  obtain ⟨x, hx, hstates⟩ := (Option.any_eq_true _ _).1 htarget
  have hr := contains_target? hj
  obtain ⟨report, hreport, -⟩ := exists_report? (branching true) uses.name
    (Settings.ofPreset .fast).notes hj hr
  refine ⟨a, _, g, stats, f, report, j, x, ha, hrun, hpruned, hf, exists_of_isSplit hsplit,
    fun i y hy => kind_ne_of_isUnrepresented hnone hy, hreport, fun hsuppressed => ?_, hj, hx,
    of_decide_eq_true hstates⟩
  exact (mem_suppressed_iff hf).1 hsuppressed (exists_target?_iff.1 ⟨j, hj⟩)

end Analysis

end Typestate
