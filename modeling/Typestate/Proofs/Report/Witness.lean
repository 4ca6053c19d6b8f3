import Typestate.Analysis
import Typestate.Proofs.Exploded.Routes
import Typestate.Proofs.States.Shape

/-!
# When a finding is reported

A finding is reported if an exploded node that is reached stands for its node and holds its
state, and suppressed if none does.
-/
namespace Typestate

namespace Routes

variable {r : Routes} {l : List NodeId} {n : NodeId}

theorem contains_of_distance {d : Nat} (h : r.distance n = some d) : r.contains n = true := by
  obtain ⟨route, hroute, -⟩ := Option.map_eq_some_iff.1 h
  rw [SortedMap.contains, hroute]
  rfl

theorem exists_distance (h : r.contains n = true) : ∃ d, r.distance n = some d := by
  obtain ⟨route, hroute⟩ := Option.isSome_iff_exists.1 h
  exact ⟨route.length, by rw [distance, hroute]; rfl⟩

theorem nearer_eq_some {best : Option NodeId} {m : NodeId} (h : r.nearer best n = some m) :
    best = some m ∨ m = n ∧ r.contains n = true := by
  unfold nearer at h
  split at h
  · rename_i d d' _ hd'
    split at h
    · exact .inr ⟨(Option.some.inj h).symm, contains_of_distance hd'⟩
    · exact .inl h
  · rename_i d hd
    exact .inr ⟨(Option.some.inj h).symm, contains_of_distance hd⟩
  · exact .inl h

theorem exists_nearer {best : Option NodeId} (h : (∃ m, best = some m) ∨ r.contains n = true) :
    ∃ m, r.nearer best n = some m := by
  unfold nearer
  split
  · rename_i d d' hd _
    split
    · exact ⟨n, rfl⟩
    · obtain ⟨m, hm, -⟩ := Option.bind_eq_some_iff.1 hd
      exact ⟨m, hm⟩
  · exact ⟨n, rfl⟩
  · rename_i hnone
    apply h.resolve_right
    intro hn
    obtain ⟨d, hd⟩ := exists_distance hn
    rw [hnone] at hd
    cases hd

theorem closest?_spec (h : r.closest? l = some n) : n ∈ l ∧ r.contains n = true := by
  have fold : ∀ (l' : List NodeId) (best : Option NodeId), (∀ m ∈ l', m ∈ l) →
      (∀ m, best = some m → m ∈ l ∧ r.contains m = true) →
      ∀ m, l'.foldl r.nearer best = some m → m ∈ l ∧ r.contains m = true := by
    intro l'
    induction l' with
    | nil => exact fun _ _ h => h
    | cons k l' ih =>
      intro best hl' hbest
      refine ih _ (fun m hm => hl' m (by simp [hm])) fun m hm => ?_
      rcases nearer_eq_some hm with hm | ⟨rfl, hk⟩
      · exact hbest m hm
      · exact ⟨hl' m (by simp), hk⟩
  exact fold l none (fun _ hm => hm) (by simp) n h

theorem exists_closest? (hn : n ∈ l) (hr : r.contains n = true) :
    ∃ m, r.closest? l = some m := by
  have fold : ∀ (l : List NodeId) (best : Option NodeId), n ∈ l ∨ (∃ m, best = some m) →
      ∃ m, l.foldl r.nearer best = some m := by
    intro l
    induction l with
    | nil => exact fun _ h => h.resolve_left List.not_mem_nil
    | cons k l ih =>
      intro best h
      refine ih _ ?_
      rcases h with h | h
      · rcases List.mem_cons.1 h with rfl | h
        · exact .inr (exists_nearer (.inr hr))
        · exact .inl h
      · exact .inr (exists_nearer (.inl h))
  exact fold l none (.inl hn)

end Routes

namespace ExplodedGraph

variable {g : ExplodedGraph} {r : Routes} {f : Finding} {i : NodeId} {x : ExplodedNode}

theorem mem_nodesFor {n : NodeId} :
    (i, x) ∈ g.nodesFor n ↔ g.nodes.get? i = some x ∧ x.node = n := by
  rw [nodesFor, List.mem_filter, SortedMap.mem_entries_iff]
  exact and_congr_right fun _ => decide_eq_true_iff

theorem closest?_spec {test : ExplodedNode → Bool} (h : g.closest? r f test = some i) :
    r.contains i = true ∧ ∃ x, g.nodes.get? i = some x ∧ x.node = f.node ∧ test x = true := by
  obtain ⟨hi, hr⟩ := Routes.closest?_spec h
  obtain ⟨⟨j, x⟩, hx, rfl⟩ := List.mem_map.1 hi
  obtain ⟨hx, htest⟩ := List.mem_filter.1 hx
  obtain ⟨hx, hnode⟩ := mem_nodesFor.1 hx
  exact ⟨hr, x, hx, hnode, htest⟩

/-- A node for the node of a finding that is reached and has its state. -/
def Shows (g : ExplodedGraph) (r : Routes) (f : Finding) : Prop :=
  ∃ i x, g.nodes.get? i = some x ∧ x.node = f.node ∧ r.contains i = true ∧
    (x.standsFor f = true ∨ x.holds f = true)

theorem exists_closest? (test : ExplodedNode → Bool) (hx : g.nodes.get? i = some x)
    (hnode : x.node = f.node) (hr : r.contains i = true) (htest : test x = true) :
    ∃ j, g.closest? r f test = some j := by
  refine Routes.exists_closest? (List.mem_map.2 ⟨(i, x), ?_, rfl⟩) hr
  exact List.mem_filter.2 ⟨mem_nodesFor.2 ⟨hx, hnode⟩, htest⟩

theorem contains_target? {j : NodeId} (h : g.target? r f = some j) : r.contains j = true := by
  rcases Option.or_eq_some_iff.1 h with hfor | ⟨-, hholds⟩
  · exact (closest?_spec hfor).1
  · exact (closest?_spec hholds).1

/-- A finding has a target if some node shows it. -/
theorem exists_target?_iff : (∃ j, g.target? r f = some j) ↔ g.Shows r f := by
  constructor
  · rintro ⟨j, hj⟩
    rcases Option.or_eq_some_iff.1 hj with hfor | ⟨-, hholds⟩
    · obtain ⟨hr, x, hx, hnode, htest⟩ := closest?_spec hfor
      exact ⟨j, x, hx, hnode, hr, .inl htest⟩
    · obtain ⟨hr, x, hx, hnode, htest⟩ := closest?_spec hholds
      exact ⟨j, x, hx, hnode, hr, .inr htest⟩
  · rintro ⟨i, x, hx, hnode, hr, hstate⟩
    unfold target?
    cases hfor : g.closest? r f (·.standsFor f) with
    | some j => exact ⟨j, rfl⟩
    | none =>
      rcases hstate with hstands | hholds
      · obtain ⟨j, hj⟩ := exists_closest? (·.standsFor f) hx hnode hr hstands
        rw [hfor] at hj
        cases hj
      · exact exists_closest? (·.holds f) hx hnode hr hholds

variable {p : Program} {machine : String} {withNotes : Bool} {l : List Finding}

theorem exists_report? (p : Program) (machine : String) (withNotes : Bool) {j : NodeId}
    (ht : g.target? r f = some j) (hr : r.contains j = true) :
    ∃ report, g.report? p r machine withNotes f = some report ∧
      report.message = f.message ∧ report.cwe = f.cwe := by
  obtain ⟨route, hroute⟩ := Option.isSome_iff_exists.1 hr
  have hpath : r.path j = some route.reverse := by rw [Routes.path, hroute]; rfl
  unfold report?
  rw [ht]
  simp only [bind, Option.bind, hpath]
  exact ⟨_, rfl, rfl, rfl⟩

theorem isSome_report? : (g.report? p r machine withNotes f).isSome = (g.target? r f).isSome := by
  cases ht : g.target? r f with
  | none =>
    unfold report?
    rw [ht]
    rfl
  | some j =>
    obtain ⟨report, hreport, -⟩ := exists_report? p machine withNotes ht (contains_target? ht)
    rw [hreport]
    rfl

theorem mem_reports {report : Report} : report ∈ (g.judge p machine withNotes l).1 ↔
    ∃ f ∈ l, g.report? p g.routes machine withNotes f = some report := by
  simp [judge]

theorem mem_suppressed : f ∈ (g.judge p machine withNotes l).2 ↔
    f ∈ l ∧ g.report? p g.routes machine withNotes f = none := by
  simp only [judge, List.mem_map, List.mem_filter, Option.isNone_iff_eq_none]
  constructor
  · rintro ⟨_, ⟨⟨f, hf, rfl⟩, hnone⟩, rfl⟩
    exact ⟨hf, hnone⟩
  · rintro ⟨hf, hnone⟩
    exact ⟨_, ⟨⟨f, hf, rfl⟩, hnone⟩, rfl⟩

end ExplodedGraph

/-- Whether a value has the state of a finding for its expression or its class. -/
def NodeStates.Admits (v : NodeStates) (f : Finding) : Prop :=
  ∃ c, (f.expr.simplify ∈ c ∨ c = f.cls) ∧ v.map.MayBe c f.state

end Typestate
