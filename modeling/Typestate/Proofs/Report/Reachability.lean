import Typestate.Proofs.Recording
import Typestate.Proofs.Report.Target

/-!
# Queries and runs

Whether a finding can happen can be asked of an analysis, with the graph exploded for each
question. To ask leaves everything but the log as it was, so each question is put to the graph that
a run explodes: the query says yes of just the findings that the run reports, and no of those that
it suppresses.
-/
namespace Typestate

/-- A partial map over a list gives one value for each element that it is defined for, in order. -/
theorem forall₂_filterMap {α β : Type} (f : α → Option β) (l : List α) :
    List.Forall₂ (fun a b => f a = some b) (l.filter fun a => (f a).isSome) (l.filterMap f) := by
  induction l with
  | nil => exact .nil
  | cons a l ih => cases h : f a <;> simp [h, ih]

namespace ExplodedGraph

variable {g : ExplodedGraph} {p : Program} {machine : String} {withNotes : Bool}

theorem reports_judge (l : List Finding) : List.Forall₂
    (fun f report => g.report? p g.routes machine withNotes f = some report)
    (l.filter fun f => (g.target? g.routes f).isSome) (g.judge p machine withNotes l).1 := by
  have hreports : (g.judge p machine withNotes l).1 =
      l.filterMap (g.report? p g.routes machine withNotes) := List.filterMap_map
  rw [hreports]
  simpa only [isSome_report?] using forall₂_filterMap (g.report? p g.routes machine withNotes) l

theorem suppressed_judge (l : List Finding) : (g.judge p machine withNotes l).2 =
    l.filter fun f => (g.target? g.routes f).isNone := by
  simp [judge, List.filter_map, Function.comp_def, ← Option.not_isSome, isSome_report?]

end ExplodedGraph

namespace Analysis

open ExplodedGraph

variable {p : Program} {m : Automaton} {s : Settings} {a b : Analysis} {r : RunReport}
  {f : Finding} {g : ExplodedGraph} {stats : PruneStats}

/-- An analysis after whether findings can happen was asked a number of times. -/
def ask (a : Analysis) (asked : List (Settings × Finding)) : Analysis :=
  asked.foldl (fun b q => (b.isReachable q.1 q.2).2) a

theorem ask_eq_refinedBy (a : Analysis) (asked : List (Settings × Finding)) :
    a.ask asked = a.refinedBy (asked.map (·.1)) := by
  unfold ask refinedBy
  rw [List.foldl_map]
  rfl

theorem refine_congr (hctx : b.context = a.context) (hstates : b.states = a.states) :
    (b.refine s).1 = (a.refine s).1 := by
  unfold refine
  rw [hctx, hstates]
  split <;> rfl

theorem refine_ask (a : Analysis) (asked : List (Settings × Finding)) (s : Settings) :
    ((a.ask asked).refine s).1 = (a.refine s).1 := by
  obtain ⟨incidents, heq, -⟩ := a.exists_refinedBy (asked.map (·.1))
  rw [ask_eq_refinedBy, heq]
  exact refine_congr rfl rfl

/-- The answer of the query, whatever was asked before. -/
theorem isReachable_ask (hpruned : (a.refine s).1 = .ok (.pruned g stats))
    (asked : List (Settings × Finding)) (f : Finding) :
    ((a.ask asked).isReachable s f).1 = .ok (g.target? g.routes f).isSome := by
  unfold isReachable
  dsimp only
  rw [refine_ask, hpruned]
  rfl

theorem subset_findings_refine (a : Analysis) (s : Settings) :
    a.log.findings ⊆ (a.refine s).2.log.findings := by
  obtain ⟨l, heq, -⟩ := a.exists_refine s
  rw [heq]
  exact a.log.subset_findings_addAll l

theorem conclude_refine {limit : Nat} (ha : solve p m limit = .ok a) (s : Settings)
    (g : ExplodedGraph) (stats : PruneStats) :
    ((a.refine s).2.conclude s g stats).reports =
        (g.judge p m.name s.notes (Finding.sort (a.refine s).2.log.findings)).1 ∧
      ((a.refine s).2.conclude s g stats).suppressed =
        (g.judge p m.name s.notes (Finding.sort (a.refine s).2.log.findings)).2 := by
  obtain ⟨facts, -, hctx, -⟩ := solve_eq_ok ha
  obtain ⟨l, heq, -⟩ := a.exists_refine s
  rw [heq]
  unfold conclude
  dsimp only
  rw [hctx]
  exact ⟨rfl, rfl⟩

/-- The query and the run agree, however often and of whatever was asked before. The query says yes
or no of each finding of a run that ends well, and those that were recorded before the graph was
exploded are among them. The run makes reports of just those of which it says yes, one of each in
order, and suppresses just those of which it says no. -/
theorem isReachable_iff_reported (ha : solve p m s.maxVisits = .ok a)
    (hrun : run p m s = .ok (.analyzed r)) (asked : List (Settings × Finding)) :
    ∃ g stats, (a.refine s).1 = .ok (.pruned g stats) ∧
      a.log.findings ⊆ (a.refine s).2.log.findings ∧
      (∀ f ∈ (a.refine s).2.log.findings,
        (((a.ask asked).isReachable s f).1 = .ok true ↔
          ∃ report ∈ r.reports, g.report? p g.routes m.name s.notes f = some report) ∧
        (((a.ask asked).isReachable s f).1 = .ok false ↔ f ∈ r.suppressed)) ∧
      List.Forall₂ (fun f report => g.report? p g.routes m.name s.notes f = some report)
        ((Finding.sort (a.refine s).2.log.findings).filter fun f =>
          ((a.ask asked).isReachable s f).1 = .ok true) r.reports ∧
      r.suppressed = (Finding.sort (a.refine s).2.log.findings).filter fun f =>
        ((a.ask asked).isReachable s f).1 = .ok false := by
  obtain ⟨g, stats, hpruned, rfl⟩ := run_eq_analyzed ha hrun
  obtain ⟨reports, suppressed⟩ := conclude_refine ha s g stats
  have hanswer := isReachable_ask hpruned asked
  have hyes : ∀ f, ((a.ask asked).isReachable s f).1 = .ok true ↔
      (g.target? g.routes f).isSome = true := fun f => by simp [hanswer f]
  have hno : ∀ f, ((a.ask asked).isReachable s f).1 = .ok false ↔
      (g.target? g.routes f).isNone = true := fun f => by simp [hanswer f]
  refine ⟨g, stats, hpruned, a.subset_findings_refine s, fun f hf => ?_, ?_, ?_⟩
  · have hsort : f ∈ Finding.sort (a.refine s).2.log.findings := List.mem_mergeSort.2 hf
    constructor
    · rw [hyes, reports]
      constructor
      · intro htarget
        obtain ⟨report, hreport⟩ := Option.isSome_iff_exists.1 (isSome_report?.trans htarget)
        exact ⟨report, mem_reports.2 ⟨f, hsort, hreport⟩, hreport⟩
      · rintro ⟨report, -, hreport⟩
        exact Option.isSome_iff_exists.2 (exists_target?_of_report? hreport)
    · rw [hno, suppressed, suppressed_judge, List.mem_filter]
      exact (and_iff_right hsort).symm
  · rw [reports]
    simpa only [hyes, Bool.decide_eq_true] using reports_judge _
  · rw [suppressed, suppressed_judge]
    simp only [hno, Bool.decide_eq_true]

/-- Whether a use of `p` where `x` is 0 was recorded that has no target, and one where `x` is not 0
that has one. -/
def findsOneTarget (a : Analysis) (g : ExplodedGraph) (_ : List Finding) : Bool :=
  (a.log.findings.any fun f => decide (f.node = 7) && (g.target? g.routes f).isNone) &&
  a.log.findings.any fun f => decide (f.node = 8) && (g.target? g.routes f).isSome

/-- If `q` is never allocated, the query says no of the use of `p` where `x` is 0, which is
suppressed, and yes of the other use, which is reported. It does so though both were asked of
before, with other settings and with the same. -/
theorem isReachable_iff_reported_branching : ∃ a r f f' report,
    solve (branching false) uses (Settings.ofPreset .fast).maxVisits = .ok a ∧
    run (branching false) uses (.ofPreset .fast) = .ok (.analyzed r) ∧
    f ∈ a.log.findings ∧ f.node = 7 ∧ f ∈ r.suppressed ∧
    f' ∈ a.log.findings ∧ f'.node = 8 ∧ report ∈ r.reports ∧
    ((a.ask [(.ofPreset .thorough, f'), (.ofPreset .fast, f)]).isReachable (.ofPreset .fast) f).1 =
      .ok false ∧
    ((a.ask [(.ofPreset .thorough, f'), (.ofPreset .fast, f)]).isReachable (.ofPreset .fast) f').1 =
      .ok true := by
  obtain ⟨a, g, stats, ha, hpruned, hrun, htest⟩ := exists_of_stages
    (p := branching false) (m := uses) (s := .ofPreset .fast) (by decide) findsOneTarget
    (by decide +kernel)
  obtain ⟨hlost, hfound⟩ := Bool.and_eq_true_iff.1 htest
  obtain ⟨f, hf, hlost⟩ := List.any_eq_true.1 hlost
  obtain ⟨f', hf', hfound⟩ := List.any_eq_true.1 hfound
  simp only [Bool.and_eq_true, decide_eq_true_eq] at hlost hfound
  obtain ⟨hnode, hlost⟩ := hlost
  obtain ⟨hnode', hfound⟩ := hfound
  obtain ⟨g', stats', -, hsubset, hverdict, -⟩ := isReachable_iff_reported ha hrun
    [(.ofPreset .thorough, f'), (.ofPreset .fast, f)]
  have hno := isReachable_ask hpruned [(.ofPreset .thorough, f'), (.ofPreset .fast, f)] f
  have hyes := isReachable_ask hpruned [(.ofPreset .thorough, f'), (.ofPreset .fast, f)] f'
  rw [Option.isNone_iff_eq_none.1 hlost] at hno
  rw [hfound] at hyes
  obtain ⟨report, hreport, -⟩ := (hverdict f' (hsubset hf')).1.1 hyes
  exact ⟨a, _, f, f', report, ha, hrun, hf, hnode, (hverdict f (hsubset hf)).2.1 hno, hf', hnode',
    hreport, hno, hyes⟩

end Analysis

end Typestate
