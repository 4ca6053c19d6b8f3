import Typestate.Proofs.Analysis
import Typestate.Proofs.Exploded.Simulation
import Typestate.Proofs.Report.Witness

/-!
# Which findings are suppressed

On a program free of calls, a finding is reported if some concrete run comes to its node with
its expression in its state: the run goes on along the exploded graph, which pruning leaves it.
A rule that fires along an edge without a copy fires in such a state. A leak along a copy is
judged at the source of the edge, where its expression does not have the state yet, so a leak
that a run does raise there is suppressed.
-/
namespace Typestate

namespace StatesContext

variable (ctx : StatesContext)

/-- A concrete run comes to the node of a finding with its expression in its state. -/
def Meets (f : Finding) : Prop :=
  ∃ path v x s, ctx.Replays path f.node v x ∧ x.statesOf f.expr = some s ∧ f.state ∈ s

/-- A concrete run raises a finding along an edge. -/
def Raises (e : EdgeId) (f : Finding) : Prop :=
  ∃ path edge v v' x f', ctx.program.edges[e]? = some edge ∧ ctx.Replays path edge.source v x ∧
    ctx.program.Takes edge v v' ∧ .finding f' ∈ (ctx.transfer x e).incidents ∧ f'.key = f.key

/-- Whether an edge leaves a node that copies. -/
def Copies (e : EdgeId) : Prop :=
  ∃ edge, ctx.program.edges[e]? = some edge ∧
    ((ctx.program.stmtAt edge.source).bind Statement.copy?).isSome = true

variable {ctx}

theorem copy?_eq_none {e : EdgeId} {edge : Edge} (he : ctx.program.edges[e]? = some edge)
    (h : ¬ ctx.Copies e) : (ctx.program.stmtAt edge.source).bind Statement.copy? = none := by
  rw [← Option.not_isSome_iff_eq_none]
  exact fun hsome => h ⟨edge, he, hsome⟩

/-- A finding raised along an edge without a copy is met at the source of the edge. -/
theorem Raises.meets (hreg : ctx.Regular) {e : EdgeId} {f : Finding} (h : ctx.Raises e f)
    (hcopy : ¬ ctx.Copies e) : ctx.Meets f := by
  obtain ⟨path, edge, v, v', x, f', he, hr, -, hf', hkey⟩ := h
  have hfits := hr.fits hreg
  obtain ⟨hnode, hstate⟩ := mem_incidents_transfer hreg he (copy?_eq_none he hcopy) hf'
  obtain ⟨s, hs, ht⟩ := (hfits.mem_statesOf hreg).2 hstate
  obtain ⟨hn, hexpr, hst, -⟩ : f'.node = f.node ∧ f'.expr = f.expr ∧ f'.state = f.state ∧
      f'.message = f.message := by simpa [Finding.key] using hkey
  rw [hn] at hnode
  rw [hexpr] at hs
  rw [hst] at ht
  exact ⟨path, v, x, s, hnode ▸ hr, hs, ht⟩

end StatesContext

/-- A finding is not among the suppressed, and some report tells of it. -/
def RunReport.Tells (r : RunReport) (f : Finding) : Prop :=
  f ∉ r.suppressed ∧ ∃ report ∈ r.reports, report.message = f.message ∧ report.cwe = f.cwe

namespace Analysis

variable {p : Program} {m : Automaton} {s : Settings} {a : Analysis} {r : RunReport}

section Judge

variable {g : ExplodedGraph} {stats : PruneStats} {f : Finding}

theorem tells_of_shows (hf : f ∈ a.log.findings) (h : g.Shows g.routes f) :
    (a.conclude s g stats).Tells f := by
  obtain ⟨j, hj⟩ := ExplodedGraph.exists_target?_iff.2 h
  obtain ⟨report, hreport, hmessage, hcwe⟩ := ExplodedGraph.exists_report?
    a.context.program a.context.automaton.name s.notes hj (ExplodedGraph.contains_target? hj)
  constructor
  · intro hsuppressed
    have hnone := (ExplodedGraph.mem_suppressed.1 hsuppressed).2
    rw [hreport] at hnone
    cases hnone
  · exact ⟨report, ExplodedGraph.mem_reports.2 ⟨f, List.mem_mergeSort.2 hf, hreport⟩,
      hmessage, hcwe⟩

theorem mem_suppressed_iff (hf : f ∈ a.log.findings) :
    f ∈ (a.conclude s g stats).suppressed ↔ ¬ g.Shows g.routes f := by
  have hsort : f ∈ Finding.sort a.log.findings := List.mem_mergeSort.2 hf
  refine ExplodedGraph.mem_suppressed.trans ((and_iff_right hsort).trans ?_)
  rw [← Option.not_isSome_iff_eq_none, ExplodedGraph.isSome_report?, Option.isSome_iff_exists,
    ExplodedGraph.exists_target?_iff]

end Judge

section Shown

variable {g built : ExplodedGraph} {incidents : List Incident} {f : Finding} {pass : String}
  {visits limit : Nat} {ctx : StatesContext} {sol : StatesSolution}

/-- What a run meets is shown by a graph that retains the runs of the exploded graph. -/
theorem shows_of_meets (hreg : ctx.Regular) (hwf : ctx.program.WellFormed)
    (hs : ctx.problem.solve pass visits = .ok sol)
    (hbuilt : ctx.explode sol.value limit = .ok (.built built, incidents))
    (hg : built.Retains ctx.program g) (h : ctx.Meets f) : g.Shows g.routes f := by
  obtain ⟨path, v, w, s, hr, hw, ht⟩ := h
  obtain ⟨c, hc, hct⟩ := ((hr.fits hreg).mem_statesOf hreg).1 ⟨s, hw, ht⟩
  obtain ⟨-, hstates⟩ := StatesContext.exists_runs_of_replays hreg hs hbuilt hwf.targets hr
  obtain ⟨i, x, hx, hnode, hxt, hruns⟩ := hstates c f.state hct
  have hleft := hg.runs hruns
  obtain ⟨y, hy⟩ := Option.isSome_iff_exists.1 (hg.closed.contains_of_runs hleft)
  have hyx := hg.nodes hy
  rw [hx] at hyx
  obtain rfl := Option.some.inj hyx
  refine ⟨i, x, hy, hnode, ExplodedGraph.contains_routes_of_runs hg.closed hleft, .inr ?_⟩
  have hxfits := StatesContext.fits_of_get?_nodes hreg hs hbuilt hx
  obtain ⟨s', hs', ht'⟩ := (hxfits.mem_statesOf hreg).2 ⟨c, hc, hxt⟩
  simp [ExplodedNode.holds, hs', ht']

theorem admits_of_shows (hreg : ctx.Regular) (hs : ctx.problem.solve pass visits = .ok sol)
    (hbuilt : ctx.explode sol.value limit = .ok (.built built, incidents))
    (hg : built.Retains ctx.program g) {r : Routes} (h : g.Shows r f) :
    ∃ v, sol.value f.node = some v ∧ v.Admits f := by
  obtain ⟨i, x, hx, hnode, -, hstate⟩ := h
  have hx := hg.nodes hx
  have hxfits := StatesContext.fits_of_get?_nodes hreg hs hbuilt hx
  obtain ⟨v, hv, hmem⟩ := StatesContext.exists_value_of_get?_nodes hbuilt hx
  obtain ⟨hbelow, hkind⟩ := NodeStates.below_of_mem_explode hmem
  refine ⟨v, hnode ▸ hv, ?_⟩
  rcases hstate with hstands | hholds
  · rcases Bool.or_eq_true_iff.1 hstands with hcls | hexpr
    · exact ⟨f.cls, .inr rfl, hkind _ _ (of_decide_eq_true hcls)⟩
    · obtain ⟨c, hc, hfor⟩ := (Option.any_eq_true _ _).1 hexpr
      have hcx := ((hxfits.classOf_eq_some hreg).1 hc).2
      exact ⟨c, .inl hcx, hkind _ _ (of_decide_eq_true hfor)⟩
  · obtain ⟨s, hs, ht⟩ := (Option.any_eq_true _ _).1 hholds
    obtain ⟨c, hc, hct⟩ := (hxfits.mem_statesOf hreg).1 ⟨s, hs, of_decide_eq_true ht⟩
    exact ⟨c, .inl hc, hbelow c _ hct⟩

end Shown

/-- On a program free of calls every run can be replayed. A finding is suppressed just if no
node of the pruned graph shows it: no finding that a run meets is suppressed, so none that a run
raises along an edge without a copy, but every finding is whose state the pass does not find at
its node. -/
theorem run_tells_met_findings (hwf : p.WellFormed) (hfree : p.CallFree)
    (ha : solve p m s.maxVisits = .ok a) (hrun : run p m s = .ok (.analyzed r)) :
    (∀ path n v, p.Runs path n v → ∃ x, a.context.Replays path n v x) ∧
      ∃ g stats, (a.refine s).1 = .ok (.pruned g stats) ∧
        ∀ f ∈ (a.refine s).2.log.findings,
          (f ∈ r.suppressed ↔ ¬ g.Shows g.routes f) ∧
          (a.context.Meets f → r.Tells f) ∧
          (∀ e, a.context.Raises e f → ¬ a.context.Copies e → r.Tells f) ∧
          ((∀ x, a.statesAt f.node = some x → ¬ x.Admits f) → f ∈ r.suppressed) := by
  obtain ⟨facts, hfacts, hctx, hs⟩ := solve_eq_ok ha
  have hprogram : a.context.program = p := by rw [hctx]; rfl
  have hreg : a.context.Regular := by
    rw [hctx]
    exact StatesContext.regular_of hwf hfree hfacts
  obtain ⟨g, stats, hpruned, rfl⟩ := run_eq_analyzed ha hrun
  obtain ⟨built, incidents, hbuilt, hprune, -⟩ := refine_eq_pruned hpruned
  have hretains : built.Retains a.context.program g := by
    refine ExplodedGraph.retains_prune ?_ (StatesContext.closed_explode hbuilt) hprune
    exact hprogram ▸ hfree.labels
  refine ⟨fun path n v hr => ?_, g, stats, hpruned, fun f hf => ?_⟩
  · rw [hctx]
    exact StatesContext.exists_replay hwf hfree hfacts hr
  · have hmeets : a.context.Meets f → g.Shows g.routes f :=
      shows_of_meets hreg (hprogram.symm ▸ hwf) hs hbuilt hretains
    refine ⟨mem_suppressed_iff hf, fun hmet => ?_, fun e hraised hcopy => ?_, fun hnone => ?_⟩
    · exact tells_of_shows hf (hmeets hmet)
    · exact tells_of_shows hf (hmeets (hraised.meets hreg hcopy))
    · apply (mem_suppressed_iff hf).2
      intro hshows
      obtain ⟨x, hx, hadmits⟩ := admits_of_shows hreg hs hbuilt hretains hshows
      exact hnone x hx hadmits

/-- The program `q = malloc(8); x = q; if (*) ;`, whose parameter is `q` and whose local is `x`.
-/
def copying : Program :=
  let q : Variable := ⟨"q", some 0, .param, .pointer⟩
  let x : Variable := ⟨"x", some 0, .localVar, .pointer⟩
  let node (kind : NodeKind) : Node := ⟨some 0, kind, none, none⟩
  let stmt (stmt : Statement) (line : Nat) : Node :=
    ⟨some 0, .statement, some stmt, some ⟨"test.c", line, 3⟩⟩
  { nodes := #[⟨none, .root, none, none⟩, node .entry, node .exit,
      stmt (.call (some (.var q)) "malloc" [.lit 8]) 2, stmt (.assign (.var x) (.use (.var q))) 3,
      stmt .nop 4]
    edges := #[⟨1, 3, .flow .always⟩, ⟨3, 4, .flow .always⟩, ⟨4, 2, .flow .always⟩,
      ⟨4, 5, .flow .always⟩, ⟨5, 2, .flow .always⟩, ⟨0, 1, .root⟩]
    functions := #[⟨0, "test", [q], [x], 1, 2, none, some ⟨"test.c", 1, 1⟩,
      some ⟨"test.c", 9, 1⟩⟩]
    globals := [] }

/-- The machine that finds allocations which no name is left for. -/
def leaks : Automaton :=
  let ptr : Decl := ⟨"ptr", .anyPointer, true, none⟩
  let machine : Machine :=
    { name := "leaks"
      clauses := [.decl ptr,
        .states ⟨["ptr.start"], [⟨.shape (.callResult (.decl "ptr") "malloc"),
          [.goto (.named "ptr.unknown")], none⟩], none⟩,
        .states ⟨["ptr.unknown"], [⟨.shape (.leaked (.decl "ptr")),
          [.error "leak of \x7bptr\x7d" (some "CWE-401")], none⟩], none⟩] }
  machine.automaton ptr

theorem wellFormed_copying : copying.WellFormed := by
  decide

theorem callFree_copying : copying.CallFree where
  edges := by
    intro edge hedge
    simp only [copying, List.mem_toArray, List.mem_cons, List.not_mem_nil, or_false] at hedge
    rcases hedge with rfl | rfl | rfl | rfl | rfl | rfl
    · exact .inr ⟨.always, 0, rfl, rfl, rfl⟩
    · exact .inr ⟨.always, 0, rfl, rfl, rfl⟩
    · exact .inr ⟨.always, 0, rfl, rfl, rfl⟩
    · exact .inr ⟨.always, 0, rfl, rfl, rfl⟩
    · exact .inr ⟨.always, 0, rfl, rfl, rfl⟩
    · exact .inl ⟨rfl, rfl⟩
  root := by decide
  statements := by
    have hall : ∀ node ∈ copying.nodes, ∀ stmt ∈ node.stmt, ∀ e ∈ stmt.exprs, ∀ x ∈ e.vars,
        x.owner = none ∨ x.owner = node.function := by
      decide
    intro n stmt hstmt e he x hx
    obtain ⟨node, hnode, hstmt⟩ := Option.bind_eq_some_iff.1 hstmt
    have hwithin := hall node (Array.mem_of_getElem? hnode) stmt hstmt e he x hx
    simpa [Program.functionIdOf, hnode] using hwithin
  labels := by
    intro edge hedge
    simp only [copying, List.mem_toArray, List.mem_cons, List.not_mem_nil, or_false] at hedge
    rcases hedge with rfl | rfl | rfl | rfl | rfl | rfl <;> simp [EdgeKind.cases]

theorem runs_copying : copying.Runs [1, 0, 5] 4 (.table []) := by
  have root : copying.Runs [5] 1 (.table []) :=
    @Program.Runs.step _ _ 5 ⟨0, 1, .root⟩ _ _ (.start _) rfl (.root rfl)
  have entry : copying.Runs [0, 5] 3 (.table []) :=
    @Program.Runs.step _ _ 0 ⟨1, 3, .flow .always⟩ _ _ root rfl (.pass rfl rfl)
  exact @Program.Runs.step _ _ 1 ⟨3, 4, .flow .always⟩ _ _ entry rfl
    (.execute rfl rfl fun _ _ _ => rfl)

/-- The findings of `copying` at a node that a test of the pruned graph accepts, where the pass is
run with the limits of the fast preset. -/
def copyingFindings (n : NodeId) (test : Analysis → ExplodedGraph → Finding → Bool) :
    List Finding :=
  match solve copying leaks (Settings.ofPreset .fast).maxVisits with
  | .error _ => []
  | .ok a =>
    match a.refine (.ofPreset .fast) with
    | (.ok (.pruned g _), after) =>
      after.log.findings.filter fun f => a.isLive && f.node = n && test a g f
    | _ => []

theorem exists_of_copyingFindings {n : NodeId} (test : Analysis → ExplodedGraph → Finding → Bool)
    (h : copyingFindings n test ≠ []) : ∃ a g stats f,
      solve copying leaks (Settings.ofPreset .fast).maxVisits = .ok a ∧
      (a.refine (.ofPreset .fast)).1 = .ok (.pruned g stats) ∧
      run copying leaks (.ofPreset .fast) =
        .ok (.analyzed ((a.refine (.ofPreset .fast)).2.conclude (.ofPreset .fast) g stats)) ∧
      f ∈ (a.refine (.ofPreset .fast)).2.log.findings ∧ f.node = n ∧ test a g f = true := by
  unfold copyingFindings at h
  split at h
  · exact absurd rfl h
  · rename_i a ha
    split at h
    · rename_i g stats after hrefine
      obtain ⟨f, hf⟩ := List.exists_mem_of_ne_nil _ h
      obtain ⟨hf, htest⟩ := List.mem_filter.1 hf
      simp only [Bool.and_eq_true, decide_eq_true_eq] at htest
      obtain ⟨⟨hlive, hnode⟩, htest⟩ := htest
      have hpruned : (a.refine (.ofPreset .fast)).1 = .ok (.pruned g stats) := by rw [hrefine]
      refine ⟨a, g, stats, f, ha, hpruned, ?_, by rw [hrefine]; exact hf, hnode, htest⟩
      exact run_of_pruned (by decide) ha hlive hpruned
    · exact absurd rfl h

/-- The local `x` takes the allocation of `q` and leaks at once: the leak is raised on the edge
from the copy to the exit and recorded at the copy, where `x` has not got the allocation yet. It is
suppressed. -/
theorem run_suppresses_leak_of_copy : ∃ a r e f, copying.WellFormed ∧ copying.CallFree ∧
    solve copying leaks (Settings.ofPreset .fast).maxVisits = .ok a ∧
    run copying leaks (.ofPreset .fast) = .ok (.analyzed r) ∧
    f ∈ (a.refine (.ofPreset .fast)).2.log.findings ∧ a.context.Raises e f ∧
    f ∈ r.suppressed := by
  obtain ⟨a, g, stats, f, ha, -, hrun, hf, hnode, htest⟩ := exists_of_copyingFindings (n := 4)
    (fun a g f => (g.target? g.routes f).isNone &&
      (a.context.statesAlong [1, 0, 5]).any fun x =>
        decide (.finding f ∈ (a.context.transfer x 2).incidents)) (by decide +kernel)
  obtain ⟨htarget, hraised⟩ := Bool.and_eq_true_iff.1 htest
  obtain ⟨x, hx, hincident⟩ := (Option.any_eq_true _ _).1 hraised
  obtain ⟨facts, -, hctx, -⟩ := solve_eq_ok ha
  have hprogram : a.context.program = copying := by rw [hctx]; rfl
  refine ⟨a, _, 2, f, wellFormed_copying, callFree_copying, ha, hrun, hf, ?_, ?_⟩
  · refine ⟨[1, 0, 5], ⟨4, 2, .flow .always⟩, .table [], .table [], x, f, ?_, ⟨?_, hx⟩, ?_,
      of_decide_eq_true hincident, rfl⟩
    · rw [hprogram]
      rfl
    · rw [hprogram]
      exact runs_copying
    · rw [hprogram]
      exact .execute rfl rfl ⟨rfl, fun _ _ _ => rfl⟩
  · apply (mem_suppressed_iff hf).2
    intro hshows
    obtain ⟨j, hj⟩ := ExplodedGraph.exists_target?_iff.2 hshows
    rw [hj] at htarget
    cases htarget

/-- The same leak is reported where it is raised on the edge from the empty statement. -/
theorem run_tells_met_findings_copying : ∃ a r f,
    solve copying leaks (Settings.ofPreset .fast).maxVisits = .ok a ∧
    run copying leaks (.ofPreset .fast) = .ok (.analyzed r) ∧ f.node = 5 ∧ r.Tells f := by
  obtain ⟨a, g, stats, f, ha, -, hrun, hf, hnode, htest⟩ := exists_of_copyingFindings (n := 5)
    (fun a _ f => (a.context.statesAlong [3, 1, 0, 5]).any fun x =>
      (x.statesOf f.expr).any (f.state ∈ ·)) (by decide +kernel)
  obtain ⟨x, hx, hstates⟩ := (Option.any_eq_true _ _).1 htest
  obtain ⟨s, hs, ht⟩ := (Option.any_eq_true _ _).1 hstates
  obtain ⟨facts, -, hctx, -⟩ := solve_eq_ok ha
  have hprogram : a.context.program = copying := by rw [hctx]; rfl
  obtain ⟨-, g', stats', -, hall⟩ :=
    run_tells_met_findings wellFormed_copying callFree_copying ha hrun
  refine ⟨a, _, f, ha, hrun, hnode, (hall f hf).2.1 ?_⟩
  refine ⟨[3, 1, 0, 5], .table [], x, s, ⟨?_, hx⟩, hs, of_decide_eq_true ht⟩
  rw [hprogram, hnode]
  exact @Program.Runs.step _ _ 3 ⟨4, 5, .flow .always⟩ _ _ runs_copying rfl
    (.execute rfl rfl ⟨rfl, fun _ _ _ => rfl⟩)

end Analysis

end Typestate
