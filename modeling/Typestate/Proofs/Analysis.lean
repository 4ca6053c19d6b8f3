import Typestate.Analysis

/-!
# The passes of a run

What a run that ends well has gone through: a solution of the facts pass and one of the states
pass over it, and a graph exploded from both and pruned.
-/
namespace Typestate.Analysis

variable {p : Program} {m : Automaton} {s : Settings} {a : Analysis} {r : RunReport}

theorem solve_of_facts {limit : Nat} {facts : FactsSolution}
    (h : p.factsProblem.solve "facts" limit = .ok facts) : solve p m limit =
      ((StatesContext.of p m facts).problem.solve "states" limit).map fun states =>
        ⟨.of p m facts, states, .ofList states.events⟩ := by
  unfold solve contextOf
  rw [h]
  simp only [bind, Except.bind, pure, Except.pure, Except.map]

theorem exists_passes {limit : Nat} (h : solve p m limit = .ok a) :
    ∃ facts states, p.factsProblem.solve "facts" limit = .ok facts ∧
      (StatesContext.of p m facts).problem.solve "states" limit = .ok states ∧
      a = ⟨.of p m facts, states, .ofList states.events⟩ := by
  cases hfacts : p.factsProblem.solve "facts" limit with
  | error fault =>
    unfold solve contextOf at h
    rw [hfacts] at h
    cases h
  | ok facts =>
    rw [solve_of_facts hfacts] at h
    cases hs : (StatesContext.of p m facts).problem.solve "states" limit with
    | error fault =>
      rw [hs] at h
      cases h
    | ok states =>
      rw [hs] at h
      cases h
      exact ⟨facts, states, rfl, hs, rfl⟩

theorem solve_eq_ok {limit : Nat} (h : solve p m limit = .ok a) :
    ∃ facts, p.factsProblem.solve "facts" limit = .ok facts ∧ a.context = .of p m facts ∧
      a.context.problem.solve "states" limit = .ok a.states := by
  obtain ⟨facts, states, hfacts, hs, rfl⟩ := exists_passes h
  exact ⟨facts, hfacts, rfl, hs⟩

theorem log_of_solve {limit : Nat} (h : solve p m limit = .ok a) :
    a.log = .ofList a.states.events := by
  obtain ⟨facts, states, -, -, rfl⟩ := exists_passes h
  rfl

theorem refine_eq_pruned {g : ExplodedGraph} {stats : PruneStats}
    (h : (a.refine s).1 = .ok (.pruned g stats)) :
    ∃ built incidents,
      a.context.explode a.states.value s.maxExploded = .ok (.built built, incidents) ∧
      built.prune a.context.program s.maxVisits s.maxRounds = .ok (g, stats) ∧
      (a.refine s).2.context = a.context := by
  unfold refine at h ⊢
  cases hexplode : a.context.explode a.states.value s.maxExploded with
  | error fault =>
    rw [hexplode] at h
    cases h
  | ok result =>
    obtain ⟨explosion, incidents⟩ := result
    rw [hexplode] at h
    cases explosion with
    | tooComplex nodes limit => cases h
    | built built =>
      dsimp only at h
      cases hprune : built.prune a.context.program s.maxVisits s.maxRounds with
      | error fault =>
        rw [hprune] at h
        cases h
      | ok result =>
        rw [hprune] at h
        obtain ⟨g', stats'⟩ := result
        cases h
        exact ⟨built, incidents, rfl, hprune, rfl⟩

theorem run_eq_analyzed (ha : solve p m s.maxVisits = .ok a)
    (h : run p m s = .ok (.analyzed r)) : ∃ g stats,
      (a.refine s).1 = .ok (.pruned g stats) ∧ r = (a.refine s).2.conclude s g stats := by
  unfold run at h
  rw [ha] at h
  split at h
  · cases h
  · dsimp only at h
    split at h
    · split at h
      · cases h
      · cases h
      · rename_i g stats after hrefine
        cases h
        exact ⟨g, stats, by rw [hrefine], by rw [hrefine]⟩
    · cases h

theorem run_of_pruned {g : ExplodedGraph} {stats : PruneStats} (hsize : p.nodes.size ≤ s.maxNodes)
    (ha : solve p m s.maxVisits = .ok a) (hlive : a.isLive = true)
    (hrefine : (a.refine s).1 = .ok (.pruned g stats)) :
    run p m s = .ok (.analyzed ((a.refine s).2.conclude s g stats)) := by
  unfold run
  rw [if_neg (Nat.not_lt.2 hsize), ha]
  simp only [hlive, if_true]
  rcases hresult : a.refine s with ⟨result, after⟩
  rw [hresult] at hrefine
  obtain rfl : result = .ok (.pruned g stats) := hrefine
  rfl

/-- The solved passes, the pruned graph and the findings of a run, if they are got. -/
def stages (p : Program) (m : Automaton) (s : Settings) :
    Option (Analysis × ExplodedGraph × List Finding) :=
  match solve p m s.maxVisits with
  | .error _ => none
  | .ok a =>
    match a.refine s with
    | (.ok (.pruned g _), after) => if a.isLive then some (a, g, after.log.findings) else none
    | _ => none

theorem exists_of_stages (hsize : p.nodes.size ≤ s.maxNodes)
    (test : Analysis → ExplodedGraph → List Finding → Bool)
    (h : (stages p m s).any (fun x => test x.1 x.2.1 x.2.2) = true) : ∃ a g stats,
      solve p m s.maxVisits = .ok a ∧ (a.refine s).1 = .ok (.pruned g stats) ∧
      run p m s = .ok (.analyzed ((a.refine s).2.conclude s g stats)) ∧
      test a g (a.refine s).2.log.findings = true := by
  unfold stages at h
  cases ha : solve p m s.maxVisits with
  | error fault => simp [ha] at h
  | ok a =>
    simp only [ha] at h
    split at h
    · rename_i g stats after hrefine
      split at h
      · rename_i hlive
        have hpruned : (a.refine s).1 = .ok (.pruned g stats) := by rw [hrefine]
        refine ⟨a, g, stats, rfl, hpruned, run_of_pruned hsize ha hlive hpruned, ?_⟩
        rw [hrefine]
        exact h
      · cases h
    · cases h

end Typestate.Analysis
