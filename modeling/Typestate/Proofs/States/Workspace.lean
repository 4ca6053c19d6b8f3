import Typestate.Proofs.Recording
import Typestate.States.Workspace

/-!
# What firing rules leave in the workspace

An action leaves the scratch space empty, so the next one finds it empty. Therefore a rule leads to
the same states and the same incidents whatever fired before it, and all that is left of a history
are the incidents in the log. All that a pass over a program or the exploding of a graph records is
left by a history.
-/
namespace Typestate

namespace Log

theorem addAll_append (log : Log) (l l' : List Incident) :
    log.addAll (l ++ l') = (log.addAll l).addAll l' :=
  List.foldl_append

end Log

namespace StatesContext

variable {ctx : StatesContext} {n n' : NodeId} {v : NodeStates} {l l' : List Incident} {log : Log}

/-- What a rule that fires comes to by itself. -/
def firing (ctx : StatesContext) (o : Occasion) : Firing := ctx.fire o.node o.cls o.state o.rule

theorem foldl_record (f : Raised → Finding) (raised : List Raised) (log : Log) :
    raised.foldl (fun w r => w.record (.finding (f r))) (⟨∅, log⟩ : Workspace) =
      ⟨∅, log.addAll (raised.map fun r => .finding (f r))⟩ := by
  induction raised generalizing log with
  | nil => rfl
  | cons r raised ih => exact ih (log.add (.finding (f r)))

/-- From an empty scratch space, an outcome does what it does by itself, records its incidents and
leaves the scratch space empty. -/
theorem perform_eq (ctx : StatesContext) (o : Occasion) (log : Log)
    (before : States × List Incident) (x : Outcome) :
    ctx.perform o (before.1, ⟨∅, log.addAll before.2⟩) x =
      ((ctx.runOutcome o.node o.cls o.rule o.state before x).1,
        ⟨∅, log.addAll (ctx.runOutcome o.node o.cls o.rule o.state before x).2⟩) := by
  cases x with
  | goto t => rfl
  | guarded value x => rfl
  | action a =>
    have hrun : a.runIn ∅ (ctx.viewOn o) = a.run (ctx.viewAt o.node o.rule o.state) := rfl
    simp only [perform, runOutcome, hrun]
    rcases a.run (ctx.viewAt o.node o.rule o.state) with ⟨_ | _, effects⟩
    · simp only [Workspace.cleared, Workspace.record, Log.addAll_append]
      rfl
    · simp only [Workspace.cleared, foldl_record, Log.addAll_append]

theorem performAll_eq (o : Occasion) (log : Log) (outcomes : List Outcome) :
    ctx.performAll o ⟨∅, log⟩ outcomes =
      ((outcomes.foldl (ctx.runOutcome o.node o.cls o.rule o.state) (.singleton o.state, [])).1,
        ⟨∅, log.addAll
          (outcomes.foldl (ctx.runOutcome o.node o.cls o.rule o.state)
            (.singleton o.state, [])).2⟩) := by
  have fold : ∀ (outcomes : List Outcome) (before : States × List Incident),
      outcomes.foldl (ctx.perform o) (before.1, ⟨∅, log.addAll before.2⟩) =
        ((outcomes.foldl (ctx.runOutcome o.node o.cls o.rule o.state) before).1,
          ⟨∅, log.addAll
            (outcomes.foldl (ctx.runOutcome o.node o.cls o.rule o.state) before).2⟩) := by
    intro outcomes
    induction outcomes with
    | nil => exact fun _ => rfl
    | cons x outcomes ih =>
      intro before
      rw [List.foldl_cons, perform_eq, ih, List.foldl_cons]
  exact fold outcomes (.singleton o.state, [])

theorem applyOutcomes_eq (o : Occasion) (log : Log) : ctx.applyOutcomes o ⟨∅, log⟩ =
    ((ctx.firing o).states, ⟨∅, log.addAll (ctx.firing o).incidents⟩) :=
  performAll_eq o log o.rule.outcomes

/-- The incidents of the rules of a history. -/
def incidentsOf (ctx : StatesContext) (history : List Occasion) : List Incident :=
  history.flatMap fun o => (ctx.firing o).incidents

/-- All that is left of a history are its incidents in the log. -/
theorem workspaceAfter_eq (ctx : StatesContext) (history : List Occasion) :
    ctx.workspaceAfter history = ⟨∅, .ofList (ctx.incidentsOf history)⟩ := by
  have fold : ∀ (history : List Occasion) (log : Log),
      history.foldl (fun w o => (ctx.applyOutcomes o w).2) ⟨∅, log⟩ =
        ⟨∅, log.addAll (ctx.incidentsOf history)⟩ := by
    intro history
    induction history with
    | nil => exact fun _ => rfl
    | cons o history ih =>
      intro log
      rw [List.foldl_cons, applyOutcomes_eq, ih, incidentsOf, incidentsOf, List.flatMap_cons,
        Log.addAll_append]
  exact fold history .empty

/-- Whether incidents are those of a history. -/
def IsHistory (ctx : StatesContext) (l : List Incident) : Prop :=
  ∃ history, l = ctx.incidentsOf history

namespace IsHistory

theorem nil : ctx.IsHistory [] := ⟨[], rfl⟩

theorem append (h : ctx.IsHistory l) (h' : ctx.IsHistory l') : ctx.IsHistory (l ++ l') := by
  obtain ⟨history, rfl⟩ := h
  obtain ⟨history', rfl⟩ := h'
  exact ⟨history ++ history', List.flatMap_append.symm⟩

theorem flatMap {α : Type} {f : α → List Incident} {l : List α}
    (h : ∀ x ∈ l, ctx.IsHistory (f x)) : ctx.IsHistory (l.flatMap f) := by
  induction l with
  | nil => exact nil
  | cons x l ih =>
    exact (h x (by simp)).append (ih fun y hy => h y (by simp [hy]))

end IsHistory

theorem isHistory_fireIn (g : RuleGroup) (s : State) :
    ctx.IsHistory (ctx.fireIn n g s).incidents := by
  unfold fireIn
  dsimp only
  split
  · exact .nil
  · refine ⟨(g.rules.filter (·.appliesTo s)).map fun m => ⟨n, g.cls, s, m⟩, ?_⟩
    rw [Firing.incidents_join, List.flatMap_map, incidentsOf, List.flatMap_map]
    rfl

theorem isHistory_fireGroup (g : RuleGroup) (current : States) :
    ctx.IsHistory (ctx.fireGroup n g current).incidents := by
  rw [fireGroup, Firing.incidents_join, List.flatMap_map]
  exact .flatMap fun s _ => isHistory_fireIn g s

theorem isHistory_applied (m : List PossibleMatch) :
    ctx.IsHistory (ctx.applied v n n' m).incidents := by
  refine List.foldlRecOn (motive := fun r : Applied => ctx.IsHistory r.incidents) _ _ .nil
    fun r hr x _ => ?_
  unfold applyGroup
  split
  · exact hr
  · exact hr.append (isHistory_fireGroup x.2 _)

theorem isHistory_transfer (ctx : StatesContext) (v : NodeStates) (e : EdgeId) :
    ctx.IsHistory (ctx.transfer v e).incidents := by
  unfold transfer
  split
  · exact .nil
  · rename_i edge _
    split
    · split
      · exact .nil
      · exact .nil
      · exact .nil
      · exact .nil
      · cases hcopy : (ctx.program.stmtAt edge.source).bind Statement.copy? with
        | none =>
          rw [flow, hcopy]
          exact isHistory_applied _
        | some x =>
          rw [incidents_flow_of_copy hcopy]
          exact isHistory_applied _
    · exact .nil

theorem isHistory_events {pass : String} {limit : Nat} {sol : StatesSolution}
    (hs : ctx.problem.solve pass limit = .ok sol) : ctx.IsHistory sol.events :=
  Dataflow.events_induction .nil (fun _ v e h => h.append (isHistory_transfer ctx v e)) hs

theorem isHistory_explode {states : NodeId → Option NodeStates} {limit : Nat} {g : ExplodedGraph}
    (h : ctx.explode states limit = .ok (.built g, l)) : ctx.IsHistory l := by
  rw [incidents_explode h]
  refine .flatMap fun y hy => ?_
  obtain ⟨⟨i, x⟩, -, hy⟩ := List.mem_flatMap.1 hy
  obtain ⟨edge, -, rfl⟩ := List.mem_map.1 hy
  rw [incidents_explodedEdges]
  exact isHistory_transfer ctx x.states edge.1

end StatesContext

namespace Analysis

variable {p : Program} {m : Automaton} {limit : Nat} {a : Analysis}

/-- The log of an analysis, however often the graph was exploded, is what a history of rules that
fired leaves in a fresh workspace. -/
theorem exists_history (ha : solve p m limit = .ok a) (l : List Settings) :
    ∃ history, (a.refinedBy l).log = (a.context.workspaceAfter history).log := by
  obtain ⟨facts, -, -, hs⟩ := solve_eq_ok ha
  have hhistory : ∃ events, a.context.IsHistory events ∧ (a.refinedBy l).context = a.context ∧
      (a.refinedBy l).log = .ofList events := by
    refine refinedBy_induction (M := fun b => ∃ events, a.context.IsHistory events ∧
      b.context = a.context ∧ b.log = .ofList events) ?_
      ⟨_, StatesContext.isHistory_events hs, rfl, log_of_solve ha⟩ l
    rintro b s ⟨events, hevents, hcontext, hlog⟩
    unfold refine
    cases hexplode : b.context.explode b.states.value s.maxExploded with
    | error fault => exact ⟨events, hevents, hcontext, hlog⟩
    | ok result =>
      obtain ⟨explosion, incidents⟩ := result
      cases explosion with
      | tooComplex nodes limit => exact ⟨events, hevents, hcontext, hlog⟩
      | built g =>
        have hmore := StatesContext.isHistory_explode hexplode
        rw [hcontext] at hmore
        refine ⟨events ++ incidents, hevents.append hmore, hcontext, ?_⟩
        rw [Log.ofList, Log.addAll_append, ← Log.ofList, ← hlog]
  obtain ⟨events, ⟨history, rfl⟩, -, hlog⟩ := hhistory
  exact ⟨history, by rw [hlog, StatesContext.workspaceAfter_eq]⟩

end Analysis

end Typestate
