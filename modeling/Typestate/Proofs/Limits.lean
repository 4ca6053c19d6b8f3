import Typestate.Proofs.Analysis
import Typestate.Proofs.Exploded.Rounds
import Typestate.Proofs.Exploded.Simulation
import Typestate.Proofs.Report.Target

/-!
# Limits do not change what a run says

A run that reaches one of its limits gives up and says so. Two runs that do not, with whatever
valid settings, come to the same findings, suppress the same, and report the same in the same
order, up to the notes, which are the same if both have any.
-/
namespace Typestate

def Report.withoutNotes (r : Report) : Report := { r with notes := [] }

/-- Whether two runs found the same, up to the notes of the reports. -/
structure RunReport.Agrees (r r' : RunReport) : Prop where
  machine : r.machine = r'.machine
  suppressed : r.suppressed = r'.suppressed
  failures : r.failures = r'.failures
  reports : r.reports.map Report.withoutNotes = r'.reports.map Report.withoutNotes

/-- A run that reached one of its limits. -/
inductive GaveUp (p : Program) (s : Settings) : Except Fault RunOutcome → Prop
  | program (h : s.maxNodes < p.nodes.size) :
    GaveUp p s (.ok (.tooComplex .program p.nodes.size s.maxNodes))
  | visits (pass : String) : GaveUp p s (.error (.notConverged pass s.maxVisits))
  | exploded {nodes : Nat} (h : s.maxExploded < nodes) :
    GaveUp p s (.ok (.tooComplex .exploded nodes s.maxExploded))

/-- Two runs that ended alike: with reports that agree, or with the same other outcome. -/
inductive SameOutcome (s s' : Settings) :
    Except Fault RunOutcome → Except Fault RunOutcome → Prop
  | analyzed {r r' : RunReport} (h : r.Agrees r')
    (hnotes : s.notes = s'.notes → r.reports = r'.reports) :
    SameOutcome s s' (.ok (.analyzed r)) (.ok (.analyzed r'))
  | unreachable : SameOutcome s s' (.ok .unreachable) (.ok .unreachable)
  | invalid (defect : GraphDefect) :
    SameOutcome s s' (.error (.invalidGraph defect)) (.error (.invalidGraph defect))

theorem Settings.maxRounds_pos {s : Settings} (h : s.validate = .ok ()) : 1 ≤ s.maxRounds := by
  unfold validate at h
  simp only [bind, Except.bind] at h
  repeat' split at h
  all_goals first | cases h | skip
  unfold checkRange at h
  split at h
  · rename_i hrange
    exact hrange.1
  · cases h

namespace Explosion

theorem lt_of_overflow? {limit total n : Nat} {counts : List Nat}
    (h : overflow? limit total counts = some n) : limit < n := by
  induction counts generalizing total with
  | nil => cases h
  | cons k counts ih =>
    unfold overflow? at h
    split at h
    · rename_i hlt
      exact Option.some.inj h ▸ hlt
    · exact ih h

end Explosion

namespace StatesContext

variable {ctx : StatesContext} {states : NodeId → Option NodeStates}

theorem explode_cases (ctx : StatesContext) (states : NodeId → Option NodeStates)
    (limit limit' : Nat) :
    (∃ n, limit < n ∧ ctx.explode states limit = .ok (.tooComplex n limit, [])) ∨
    (∃ n, limit' < n ∧ ctx.explode states limit' = .ok (.tooComplex n limit', [])) ∨
    (ctx.explode states limit = .error (.invalidGraph .stateless) ∧
      ctx.explode states limit' = .error (.invalidGraph .stateless)) ∨
    ∃ g incidents, ctx.explode states limit = .ok (.built g, incidents) ∧
      ctx.explode states limit' = .ok (.built g, incidents) := by
  unfold explode
  dsimp only
  cases hover : Explosion.overflow? limit 0 ((ctx.explodedNodes states).map List.length) with
  | some n => exact .inl ⟨n, Explosion.lt_of_overflow? hover, rfl⟩
  | none =>
    cases hover' : Explosion.overflow? limit' 0 ((ctx.explodedNodes states).map List.length) with
    | some n => exact .inr (.inl ⟨n, Explosion.lt_of_overflow? hover', rfl⟩)
    | none =>
      dsimp only
      split
      · exact .inr (.inr (.inl ⟨rfl, rfl⟩))
      · exact .inr (.inr (.inr ⟨_, _, rfl, rfl⟩))

end StatesContext

namespace ExplodedGraph

variable {g : ExplodedGraph} {p : Program}

theorem report?_withoutNotes (g : ExplodedGraph) (p : Program) (r : Routes) (machine : String)
    (b b' : Bool) (f : Finding) : (g.report? p r machine b f).map Report.withoutNotes =
      (g.report? p r machine b' f).map Report.withoutNotes := by
  unfold report?
  cases g.target? r f with
  | none => rfl
  | some target =>
    simp only [bind, Option.bind]
    cases r.path target with
    | none => rfl
    | some path => rfl

/-- Notes change neither what is suppressed nor what is reported. -/
theorem judge_notes (g : ExplodedGraph) (p : Program) (machine : String) (b b' : Bool)
    (l : List Finding) :
    (g.judge p machine b l).2 = (g.judge p machine b' l).2 ∧
    (g.judge p machine b l).1.map Report.withoutNotes =
      (g.judge p machine b' l).1.map Report.withoutNotes := by
  have hreport := g.report?_withoutNotes p g.routes machine b b'
  unfold judge
  dsimp only
  induction l with
  | nil => exact ⟨rfl, rfl⟩
  | cons f l ih =>
    have hf := hreport f
    cases hb : g.report? p g.routes machine b f with
    | none =>
      rw [hb] at hf
      have hb' := Option.map_eq_none_iff.1 hf.symm
      simpa [hb, hb'] using ih
    | some r =>
      rw [hb] at hf
      obtain ⟨r', hb', heq⟩ := Option.map_eq_some_iff.1 hf.symm
      simpa [hb, hb', heq] using ih

/-- Pruning gives up, or does not depend on the limits. -/
theorem prune_cases (hg : g.Closed) (limit limit' : Nat) {rounds rounds' : Nat}
    (h : 1 ≤ rounds) (h' : 1 ≤ rounds') :
    g.prune p limit rounds = .error (.notConverged "exploded-facts" limit) ∨
    g.prune p limit' rounds' = .error (.notConverged "exploded-facts" limit') ∨
    ∃ left stats stats', g.prune p limit rounds = .ok (left, stats) ∧
      g.prune p limit' rounds' = .ok (left, stats') := by
  obtain ⟨rounds, rfl⟩ := Nat.exists_eq_add_of_le' h
  obtain ⟨rounds', rfl⟩ := Nat.exists_eq_add_of_le' h'
  have error : ∀ {limit rounds fault},
      (g.factsProblem p).solve "exploded-facts" limit = .error fault →
      g.prune p limit (rounds + 1) = .error (.notConverged "exploded-facts" limit) := by
    intro limit rounds fault hs
    unfold prune
    rw [hs, Dataflow.solve_eq_error hs]
    rfl
  cases hs : (g.factsProblem p).solve "exploded-facts" limit with
  | error fault => exact .inl (error hs)
  | ok facts =>
    cases hs' : (g.factsProblem p).solve "exploded-facts" limit' with
    | error fault => exact .inr (.inl (error hs'))
    | ok facts' =>
      obtain rfl := Dataflow.solve_unique hs' hs
      obtain ⟨done, visits, -, hprune⟩ := prune_eq hg hs rounds
      obtain ⟨done', visits', -, hprune'⟩ := prune_eq hg hs' rounds'
      exact .inr (.inr ⟨_, _, _, hprune, hprune'⟩)

end ExplodedGraph

namespace Analysis

def RefinementGaveUp (s : Settings) (r : Except Fault Refinement) : Prop :=
  r = .error (.notConverged "exploded-facts" s.maxVisits) ∨
  ∃ n, s.maxExploded < n ∧ r = .ok (.tooComplex n s.maxExploded)

theorem solve_cases (p : Program) (m : Automaton) (limit limit' : Nat) :
    (∃ pass, solve p m limit = .error (.notConverged pass limit)) ∨
    (∃ pass, solve p m limit' = .error (.notConverged pass limit')) ∨
    ∃ a, solve p m limit = .ok a ∧ solve p m limit' = .ok a := by
  have facts_error : ∀ {limit fault}, p.factsProblem.solve "facts" limit = .error fault →
      solve p m limit = .error (.notConverged "facts" limit) := by
    intro limit fault h
    unfold solve contextOf
    rw [h, Dataflow.solve_eq_error h]
    rfl
  cases hfacts : p.factsProblem.solve "facts" limit with
  | error fault => exact .inl ⟨_, facts_error hfacts⟩
  | ok facts =>
    cases hfacts' : p.factsProblem.solve "facts" limit' with
    | error fault => exact .inr (.inl ⟨_, facts_error hfacts'⟩)
    | ok facts' =>
      obtain rfl := Dataflow.solve_unique hfacts' hfacts
      rw [solve_of_facts hfacts, solve_of_facts hfacts']
      cases hstates : (StatesContext.of p m facts).problem.solve "states" limit with
      | error fault => exact .inl ⟨_, congrArg _ (Dataflow.solve_eq_error hstates)⟩
      | ok states =>
        cases hstates' : (StatesContext.of p m facts).problem.solve "states" limit' with
        | error fault => exact .inr (.inl ⟨_, congrArg _ (Dataflow.solve_eq_error hstates')⟩)
        | ok states' =>
          obtain rfl := Dataflow.solve_unique hstates' hstates
          exact .inr (.inr ⟨_, rfl, rfl⟩)

theorem refine_cases (a : Analysis) {s s' : Settings} (hs : 1 ≤ s.maxRounds)
    (hs' : 1 ≤ s'.maxRounds) :
    RefinementGaveUp s (a.refine s).1 ∨ RefinementGaveUp s' (a.refine s').1 ∨
    (∃ defect, (a.refine s).1 = .error (.invalidGraph defect) ∧
      (a.refine s').1 = .error (.invalidGraph defect)) ∨
    ∃ g stats stats' after, a.refine s = (.ok (.pruned g stats), after) ∧
      a.refine s' = (.ok (.pruned g stats'), after) := by
  unfold refine
  rcases a.context.explode_cases a.states.value s.maxExploded s'.maxExploded with
    ⟨n, hn, h⟩ | ⟨n, hn, h⟩ | ⟨h, h'⟩ | ⟨g, incidents, h, h'⟩
  · rw [h]
    exact .inl (.inr ⟨n, hn, rfl⟩)
  · rw [h]
    exact .inr (.inl (.inr ⟨n, hn, rfl⟩))
  · rw [h, h']
    exact .inr (.inr (.inl ⟨_, rfl, rfl⟩))
  · rw [h, h']
    dsimp only
    have hclosed := StatesContext.closed_explode h
    rcases ExplodedGraph.prune_cases (p := a.context.program) hclosed s.maxVisits s'.maxVisits hs
      hs' with h | h | ⟨left, stats, stats', h, h'⟩
    · rw [h]
      exact .inl (.inl rfl)
    · rw [h]
      exact .inr (.inl (.inl rfl))
    · rw [h, h']
      exact .inr (.inr (.inr ⟨left, stats, stats', _, rfl, rfl⟩))

theorem agrees_conclude (a : Analysis) (s s' : Settings) (g : ExplodedGraph)
    (stats stats' : PruneStats) : (a.conclude s g stats).Agrees (a.conclude s' g stats') ∧
      (s.notes = s'.notes → (a.conclude s g stats).reports = (a.conclude s' g stats').reports) := by
  obtain ⟨hsuppressed, hreports⟩ := g.judge_notes a.context.program a.context.automaton.name
    s.notes s'.notes (Finding.sort a.log.findings)
  refine ⟨⟨rfl, hsuppressed, rfl, hreports⟩, fun h => ?_⟩
  unfold conclude
  rw [h]

section Live

variable {p : Program} {m : Automaton} {s : Settings} {a : Analysis}

theorem gaveUp_of_refinement (hsize : p.nodes.size ≤ s.maxNodes)
    (ha : solve p m s.maxVisits = .ok a) (hlive : a.isLive = true)
    (h : RefinementGaveUp s (a.refine s).1) : GaveUp p s (run p m s) := by
  unfold run
  rw [if_neg (Nat.not_lt.2 hsize), ha]
  simp only [hlive, if_true]
  rcases hresult : a.refine s with ⟨result, after⟩
  rw [hresult] at h
  rcases h with h | ⟨n, hn, h⟩
  · obtain rfl : result = .error (.notConverged "exploded-facts" s.maxVisits) := h
    exact .visits _
  · obtain rfl : result = .ok (.tooComplex n s.maxExploded) := h
    exact .exploded hn

theorem run_of_invalid (hsize : p.nodes.size ≤ s.maxNodes)
    (ha : solve p m s.maxVisits = .ok a) (hlive : a.isLive = true) {fault : Fault}
    (h : (a.refine s).1 = .error fault) : run p m s = .error fault := by
  unfold run
  rw [if_neg (Nat.not_lt.2 hsize), ha]
  simp only [hlive, if_true]
  rcases hresult : a.refine s with ⟨result, after⟩
  rw [hresult] at h
  obtain rfl : result = .error fault := h
  rfl

theorem run_of_not_live (hsize : p.nodes.size ≤ s.maxNodes)
    (ha : solve p m s.maxVisits = .ok a) (hlive : ¬ a.isLive = true) :
    run p m s = .ok .unreachable := by
  unfold run
  rw [if_neg (Nat.not_lt.2 hsize), ha]
  simp only [hlive]
  rfl

theorem gaveUp_of_size (hsize : s.maxNodes < p.nodes.size) : GaveUp p s (run p m s) := by
  unfold run
  rw [if_pos hsize]
  exact .program hsize

theorem gaveUp_of_solve (hsize : p.nodes.size ≤ s.maxNodes) {pass : String}
    (h : solve p m s.maxVisits = .error (.notConverged pass s.maxVisits)) :
    GaveUp p s (run p m s) := by
  unfold run
  rw [if_neg (Nat.not_lt.2 hsize), h]
  exact .visits pass

end Live

/-- One of two runs gives up, or both end alike. -/
theorem run_cases (p : Program) (m : Automaton) {s s' : Settings} (hs : 1 ≤ s.maxRounds)
    (hs' : 1 ≤ s'.maxRounds) :
    GaveUp p s (run p m s) ∨ GaveUp p s' (run p m s') ∨
      SameOutcome s s' (run p m s) (run p m s') := by
  rcases Nat.lt_or_ge s.maxNodes p.nodes.size with hsize | hsize
  · exact .inl (gaveUp_of_size hsize)
  rcases Nat.lt_or_ge s'.maxNodes p.nodes.size with hsize' | hsize'
  · exact .inr (.inl (gaveUp_of_size hsize'))
  rcases solve_cases p m s.maxVisits s'.maxVisits with ⟨pass, h⟩ | ⟨pass, h⟩ | ⟨a, ha, ha'⟩
  · exact .inl (gaveUp_of_solve hsize h)
  · exact .inr (.inl (gaveUp_of_solve hsize' h))
  by_cases hlive : a.isLive = true
  · rcases a.refine_cases hs hs' with h | h | ⟨defect, h, h'⟩ | ⟨g, stats, stats', after, h, h'⟩
    · exact .inl (gaveUp_of_refinement hsize ha hlive h)
    · exact .inr (.inl (gaveUp_of_refinement hsize' ha' hlive h))
    · rw [run_of_invalid hsize ha hlive h, run_of_invalid hsize' ha' hlive h']
      exact .inr (.inr (.invalid defect))
    · obtain ⟨hagrees, hnotes⟩ := after.agrees_conclude s s' g stats stats'
      rw [run_of_pruned hsize ha hlive (by rw [h]), run_of_pruned hsize' ha' hlive (by rw [h']),
        h, h']
      exact .inr (.inr (.analyzed hagrees hnotes))
  · rw [run_of_not_live hsize ha hlive, run_of_not_live hsize' ha' hlive]
    exact .inr (.inr .unreachable)

/-- Limits never change what a run says: with any two valid settings a run says the same, up to
notes, or gives up on one of its limits under one of them. -/
theorem run_limits (p : Program) (m : Automaton) {s s' : Settings} (hs : s.validate = .ok ())
    (hs' : s'.validate = .ok ()) :
    (∀ r r', run p m s = .ok (.analyzed r) → run p m s' = .ok (.analyzed r') →
      r.suppressed = r'.suppressed ∧ r.failures = r'.failures ∧
      r.reports.map Report.withoutNotes = r'.reports.map Report.withoutNotes ∧
      (s.notes = s'.notes → r.reports = r'.reports)) ∧
    (GaveUp p s (run p m s) ∨ GaveUp p s' (run p m s') ∨
      SameOutcome s s' (run p m s) (run p m s')) := by
  have hcases := run_cases p m (Settings.maxRounds_pos hs) (Settings.maxRounds_pos hs')
  refine ⟨fun r r' hr hr' => ?_, hcases⟩
  rw [hr, hr'] at hcases
  rcases hcases with hup | hup | hsame
  · cases hup
  · cases hup
  · cases hsame with
    | analyzed h hnotes => exact ⟨h.suppressed, h.failures, h.reports, hnotes⟩

/-- Small limits, with one round of pruning and with notes. -/
def tightSettings : Settings := ⟨.thorough, 20, 10, 20, 1, true⟩

/-- Whether some finding has a target in a graph, and another has none. -/
def separates (g : ExplodedGraph) (l : List Finding) : Bool :=
  (l.any fun f => (g.target? g.routes f).isNone) && l.any fun f => (g.target? g.routes f).isSome

theorem exists_of_separates {p : Program} {m : Automaton} {s : Settings}
    (hsize : p.nodes.size ≤ s.maxNodes)
    (h : (stages p m s).any (fun x => separates x.2.1 x.2.2) = true) :
    ∃ r, run p m s = .ok (.analyzed r) ∧ r.suppressed ≠ [] ∧ r.reports ≠ [] := by
  obtain ⟨a, g, stats, -, -, hrun, htest⟩ := exists_of_stages hsize (fun _ => separates) h
  obtain ⟨hlost, htold⟩ := Bool.and_eq_true_iff.1 htest
  obtain ⟨f, hf, hnone⟩ := List.any_eq_true.1 hlost
  obtain ⟨f', hf', hsome⟩ := List.any_eq_true.1 htold
  obtain ⟨j, hj⟩ := Option.isSome_iff_exists.1 hsome
  refine ⟨_, hrun, List.ne_nil_of_mem ((mem_suppressed_iff hf).2 fun hshows => ?_), ?_⟩
  · obtain ⟨j', hj'⟩ := ExplodedGraph.exists_target?_iff.2 hshows
    rw [hj'] at hnone
    cases hnone
  · obtain ⟨report, hreport, -⟩ := ExplodedGraph.exists_report? (a.refine s).2.context.program
      (a.refine s).2.context.automaton.name s.notes hj (ExplodedGraph.contains_target? hj)
    exact List.ne_nil_of_mem
      (ExplodedGraph.mem_reports.2 ⟨f', List.mem_mergeSort.2 hf', hreport⟩)

theorem run_limits_branching : ∃ r r',
    (Settings.ofPreset .fast).validate = .ok () ∧ tightSettings.validate = .ok () ∧
    run (branching false) uses (.ofPreset .fast) = .ok (.analyzed r) ∧
    run (branching false) uses tightSettings = .ok (.analyzed r') ∧
    r.suppressed ≠ [] ∧ r.reports ≠ [] ∧ r.suppressed = r'.suppressed ∧
    r.failures = r'.failures ∧
    r.reports.map Report.withoutNotes = r'.reports.map Report.withoutNotes := by
  obtain ⟨r, hr, hsuppressed, hreports⟩ := exists_of_separates
    (p := branching false) (m := uses) (s := .ofPreset .fast) (by decide) (by decide +kernel)
  obtain ⟨r', hr', -, -⟩ := exists_of_separates
    (p := branching false) (m := uses) (s := tightSettings) (by decide) (by decide +kernel)
  have hfast : (Settings.ofPreset .fast).validate = .ok () := rfl
  have htight : tightSettings.validate = .ok () := rfl
  obtain ⟨hsame, hfailures, hmap, -⟩ :=
    (run_limits (branching false) uses hfast htight).1 r r' hr hr'
  exact ⟨r, r', hfast, htight, hr, hr', hsuppressed, hreports, hsame, hfailures, hmap⟩

end Analysis

end Typestate
