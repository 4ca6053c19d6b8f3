import Typestate.Automaton.Script
import Typestate.Proofs.States.Workspace

/-!
# Failing actions

An action that fails is skipped: whatever it entered, raised or stored before, the rule leads to the
states and records the errors that it would without the action. What the action leaves is the record
of its failure, once however often its edge is evaluated. The scratch space is empty before each
action, so none of them depends on what others have done.
-/
namespace Typestate

def Incident.isFinding : Incident → Bool
  | .finding _ => true
  | .failure _ => false

namespace Log

variable {log : Log} {i : Incident} {l : List Incident} {f : Failure}

theorem failures_add (log : Log) (i : Incident) : (log.add i).failures = log.failures ∨
    ∃ f, i = .failure f ∧ f ∉ log.failures ∧ (log.add i).failures = log.failures ++ [f] := by
  cases i with
  | finding f =>
    left
    unfold add
    dsimp only
    split <;> rfl
  | failure f =>
    unfold add
    dsimp only
    split
    · exact .inl rfl
    · rename_i hnew
      exact .inr ⟨f, rfl, hnew, rfl⟩

theorem mem_failures_addAll : f ∈ (log.addAll l).failures ↔ f ∈ log.failures ∨ .failure f ∈ l := by
  constructor
  · intro h
    unfold addAll at h
    induction l generalizing log with
    | nil => exact .inl h
    | cons i l ih =>
      rcases ih h with h | h
      · rcases log.failures_add i with heq | ⟨f', rfl, -, heq⟩
        · exact .inl (heq ▸ h)
        · rw [heq] at h
          rcases List.mem_append.1 h with h | h
          · exact .inl h
          · exact .inr (by simp [List.mem_singleton.1 h])
      · exact .inr (List.mem_cons_of_mem _ h)
  · rintro (h | h)
    · exact Has.addAll (i := .failure f) h l
    · exact has_addAll log h

theorem nodup_failures_addAll (h : log.failures.Nodup) (l : List Incident) :
    (log.addAll l).failures.Nodup := by
  unfold addAll
  induction l generalizing log with
  | nil => exact h
  | cons i l ih =>
    refine ih ?_
    rcases log.failures_add i with heq | ⟨f, -, hnew, heq⟩ <;> rw [heq]
    · exact h
    · refine List.nodup_append.2 ⟨h, by simp, fun f' hf' k hk => ?_⟩
      rintro rfl
      exact hnew (List.mem_singleton.1 hk ▸ hf')

theorem failures_addAll_of_isFinding (h : ∀ i ∈ l, i.isFinding = true) :
    (log.addAll l).failures = log.failures := by
  unfold addAll
  induction l generalizing log with
  | nil => rfl
  | cons i l ih =>
    rw [List.foldl_cons, ih fun j hj => h j (by simp [hj])]
    rcases log.failures_add i with heq | ⟨f, rfl, -, -⟩
    · exact heq
    · cases h _ List.mem_cons_self

theorem findings_addAll_filter (log : Log) (l : List Incident) :
    (log.addAll (l.filter (·.isFinding))).findings = (log.addAll l).findings := by
  have fold : ∀ (l : List Incident) (log log' : Log), log.findings = log'.findings →
      (log.addAll (l.filter (·.isFinding))).findings = (log'.addAll l).findings := by
    intro l
    induction l with
    | nil => exact fun _ _ h => h
    | cons i l ih =>
      intro log log' h
      cases i with
      | finding f =>
        refine ih (log.add (.finding f)) (log'.add (.finding f)) ?_
        unfold add
        dsimp only
        rw [h]
        split <;> simp [h]
      | failure f =>
        refine ih log (log'.add (.failure f)) (h.trans ?_)
        unfold add
        dsimp only
        split <;> rfl
  exact fold l log log rfl

end Log

namespace StatesContext

variable {ctx : StatesContext} {o : Occasion} {f : Failure}

/-- The record of an outcome of a rule that fires, if it is an action that fails. -/
def failureOf (ctx : StatesContext) (o : Occasion) : Outcome → Option Failure
  | .action a =>
    match (a.run (ctx.viewOn o)).1 with
    | .error e => some ⟨a.name, e.message, ctx.program.locationOf o.node⟩
    | .ok _ => none
  | _ => none

/-- A rule that fires, with its failing actions removed. -/
def withoutFailing (ctx : StatesContext) (o : Occasion) : Occasion :=
  { o with rule := { o.rule with
      outcomes := o.rule.outcomes.filter fun x => (ctx.failureOf o x).isNone } }

section Outcomes

variable {x : Outcome}

theorem runOutcome_of_failureOf (h : ctx.failureOf o x = some f)
    (before : States × List Incident) :
    ctx.runOutcome o.node o.cls o.rule o.state before x =
      (before.1, before.2 ++ [.failure f]) := by
  cases x with
  | goto t => cases h
  | guarded value x => cases h
  | action a =>
    simp only [failureOf, viewOn] at h
    rcases hrun : a.run (ctx.viewAt o.node o.rule o.state) with ⟨_ | _, effects⟩ <;>
      simp only [hrun] at h
    · simp only [runOutcome, hrun, Option.some.inj h]
    · cases h

/-- An outcome that does not fail changes the states and raises errors without a look at the
incidents before it. -/
theorem runOutcome_of_not_failing (h : ctx.failureOf o x = none) :
    ∃ (enter : States → States) (raised : List Finding), ∀ before : States × List Incident,
      ctx.runOutcome o.node o.cls o.rule o.state before x =
        (enter before.1, before.2 ++ raised.map .finding) := by
  cases x with
  | goto t => exact ⟨fun _ => .singleton t, [], fun before => by simp [runOutcome]⟩
  | guarded value x => exact ⟨id, [], fun before => by simp [runOutcome]⟩
  | action a =>
    simp only [failureOf, viewOn] at h
    rcases hrun : a.run (ctx.viewAt o.node o.rule o.state) with ⟨_ | _, effects⟩ <;>
      simp only [hrun] at h
    · cases h
    · refine ⟨fun s => if effects.states.isEmpty then s else .ofList effects.states,
        effects.raised.map (ctx.findingAt o.node o.cls o.rule o.state), fun before => ?_⟩
      simp only [runOutcome, hrun, List.map_map]
      rfl

theorem foldl_runOutcome_filter (outcomes : List Outcome) (before : States × List Incident) :
    (outcomes.filter fun x => (ctx.failureOf o x).isNone).foldl
        (ctx.runOutcome o.node o.cls o.rule o.state) (before.1, before.2.filter (·.isFinding)) =
      ((outcomes.foldl (ctx.runOutcome o.node o.cls o.rule o.state) before).1,
        (outcomes.foldl (ctx.runOutcome o.node o.cls o.rule o.state) before).2.filter
          (·.isFinding)) := by
  induction outcomes generalizing before with
  | nil => rfl
  | cons x outcomes ih =>
    rw [List.foldl_cons, ← ih]
    cases hx : ctx.failureOf o x with
    | none =>
      obtain ⟨enter, raised, hrun⟩ := runOutcome_of_not_failing hx
      have hraised : (raised.map Incident.finding).filter (·.isFinding) = raised.map .finding := by
        simp [Incident.isFinding]
      rw [List.filter_cons_of_pos (by simp [hx]), List.foldl_cons, hrun, hrun, List.filter_append,
        hraised]
    | some f =>
      rw [List.filter_cons_of_neg (by simp [hx]), runOutcome_of_failureOf hx, List.filter_append]
      simp [Incident.isFinding]

theorem failure_mem_foldl_runOutcome (outcomes : List Outcome) (before : States × List Incident) :
    .failure f ∈ (outcomes.foldl (ctx.runOutcome o.node o.cls o.rule o.state) before).2 ↔
      .failure f ∈ before.2 ∨ ∃ x ∈ outcomes, ctx.failureOf o x = some f := by
  induction outcomes generalizing before with
  | nil => simp
  | cons x outcomes ih =>
    rw [List.foldl_cons, ih]
    cases hx : ctx.failureOf o x with
    | none =>
      obtain ⟨enter, raised, hrun⟩ := runOutcome_of_not_failing hx
      rw [hrun]
      simp [hx]
    | some f' =>
      rw [runOutcome_of_failureOf hx]
      simp [hx, or_assoc, eq_comm]

end Outcomes

theorem firing_withoutFailing (ctx : StatesContext) (o : Occasion) :
    (ctx.firing (ctx.withoutFailing o)).states = (ctx.firing o).states ∧
      (ctx.firing (ctx.withoutFailing o)).incidents =
        (ctx.firing o).incidents.filter (·.isFinding) := by
  have hrun : ctx.runOutcome o.node o.cls (ctx.withoutFailing o).rule o.state =
      ctx.runOutcome o.node o.cls o.rule o.state := by
    funext before x
    cases x <;> rfl
  have hfold : (ctx.withoutFailing o).rule.outcomes.foldl
        (ctx.runOutcome o.node o.cls (ctx.withoutFailing o).rule o.state) (.singleton o.state, []) =
      ((ctx.firing o).states, (ctx.firing o).incidents.filter (·.isFinding)) := by
    rw [hrun]
    exact foldl_runOutcome_filter o.rule.outcomes (.singleton o.state, [])
  have hstates := congrArg Prod.fst hfold
  have hincidents := congrArg Prod.snd hfold
  exact ⟨hstates, hincidents⟩

theorem failure_mem_firing : .failure f ∈ (ctx.firing o).incidents ↔
    ∃ x ∈ o.rule.outcomes, ctx.failureOf o x = some f :=
  (failure_mem_foldl_runOutcome o.rule.outcomes _).trans (by simp)

section History

variable (ctx) (history : List Occasion)

/-- The failures in the log are those of the history, each of them once. -/
theorem failures_workspaceAfter : (ctx.workspaceAfter history).log.failures.Nodup ∧
    ∀ f, f ∈ (ctx.workspaceAfter history).log.failures ↔
      ∃ o ∈ history, ∃ x ∈ o.rule.outcomes, ctx.failureOf o x = some f := by
  rw [workspaceAfter_eq]
  refine ⟨Log.nodup_failures_addAll List.nodup_nil _, fun f => ?_⟩
  have hempty : f ∉ Log.empty.failures := List.not_mem_nil
  rw [Log.ofList, Log.mem_failures_addAll, or_iff_right hempty, incidentsOf]
  simp only [List.mem_flatMap, failure_mem_firing]

variable {history}

/-- A rule that fires again records nothing. -/
theorem applyOutcomes_again (ho : o ∈ history) :
    (ctx.applyOutcomes o (ctx.workspaceAfter history)).2 = ctx.workspaceAfter history := by
  rw [workspaceAfter_eq, applyOutcomes_eq]
  have hhas : ∀ i ∈ (ctx.firing o).incidents, (Log.ofList (ctx.incidentsOf history)).Has i :=
    fun i hi => Log.has_addAll _ (List.mem_flatMap.2 ⟨o, ho, hi⟩)
  rw [Log.addAll_of_has hhas]

end History

/-- What a rule that fires at a node leads to, after any history of rules that fired. Each action
finds an empty scratch space, so it does what it does by itself. The states, and the errors in the
log, are those that the outcomes lead to with all failing actions removed, and the states do not
depend on the history. The failures in the log are the records of the failing actions, each of them
once, and a rule that has fired before adds nothing to the log when it fires again. Whatever a run
over a program records, however often the graph is exploded, is recorded by such a history. -/
theorem failing_actions_leave_records (ctx : StatesContext) (history : List Occasion)
    (o : Occasion) :
    (∀ before a after, o.rule.outcomes = before ++ .action a :: after →
      a.runIn (ctx.performAll o (ctx.workspaceAfter history) before).2.scratch (ctx.viewOn o) =
          a.run (ctx.viewOn o) ∧
        (ctx.performAll o (ctx.workspaceAfter history) before).2.scratch = ∅) ∧
    ((ctx.applyOutcomes o (ctx.workspaceAfter history)).1 =
        (ctx.applyOutcomes (ctx.withoutFailing o) (ctx.workspaceAfter history)).1 ∧
      (ctx.applyOutcomes o (ctx.workspaceAfter history)).2.log.findings =
        (ctx.applyOutcomes (ctx.withoutFailing o) (ctx.workspaceAfter history)).2.log.findings ∧
      (ctx.applyOutcomes (ctx.withoutFailing o) (ctx.workspaceAfter history)).2.log.failures =
        (ctx.workspaceAfter history).log.failures) ∧
    (ctx.applyOutcomes o (ctx.workspaceAfter history)).1 =
      (ctx.fire o.node o.cls o.state o.rule).states ∧
    ((ctx.applyOutcomes o (ctx.workspaceAfter history)).2.log.failures.Nodup ∧
      ∀ f, f ∈ (ctx.applyOutcomes o (ctx.workspaceAfter history)).2.log.failures ↔
        f ∈ (ctx.workspaceAfter history).log.failures ∨
          ∃ x ∈ o.rule.outcomes, ctx.failureOf o x = some f) ∧
    (o ∈ history →
      (ctx.applyOutcomes o (ctx.workspaceAfter history)).2 = ctx.workspaceAfter history) ∧
    ∀ p m limit (a : Analysis), Analysis.solve p m limit = .ok a → ∀ l, ∃ history,
      (a.refinedBy l).log = (a.context.workspaceAfter history).log ∧
      (a.refinedBy l).log.failures.Nodup := by
  obtain ⟨hstates, hincidents⟩ := firing_withoutFailing ctx o
  have hsnoc : (ctx.applyOutcomes o (ctx.workspaceAfter history)).2 =
      ctx.workspaceAfter (history ++ [o]) := by simp [workspaceAfter]
  refine ⟨fun before a after _ => ?_, ⟨?_, ?_, ?_⟩, ?_, ⟨?_, fun f => ?_⟩, applyOutcomes_again ctx,
    fun p m limit a ha l => ?_⟩
  · have hempty : (ctx.performAll o (ctx.workspaceAfter history) before).2.scratch = ∅ := by
      rw [workspaceAfter_eq, performAll_eq]
    exact ⟨by rw [hempty]; rfl, hempty⟩
  · rw [workspaceAfter_eq, applyOutcomes_eq, applyOutcomes_eq, hstates]
  · rw [workspaceAfter_eq, applyOutcomes_eq, applyOutcomes_eq, hincidents,
      Log.findings_addAll_filter]
  · rw [workspaceAfter_eq, applyOutcomes_eq, hincidents]
    exact Log.failures_addAll_of_isFinding fun i hi => (List.mem_filter.1 hi).2
  · rw [workspaceAfter_eq, applyOutcomes_eq]
    rfl
  · rw [hsnoc]
    exact (failures_workspaceAfter ctx _).1
  · rw [hsnoc, (failures_workspaceAfter ctx _).2, (failures_workspaceAfter ctx _).2]
    simp [or_and_right, exists_or]
  · obtain ⟨history, hlog⟩ := a.exists_history ha l
    exact ⟨history, hlog, hlog ▸ (failures_workspaceAfter _ history).1⟩

/-- The function `void test(char *p) { p = malloc(8); }`. -/
def allocating : Program :=
  let p : Variable := ⟨"p", some 0, .param, .pointer⟩
  { nodes := #[⟨none, .root, none, none⟩, ⟨some 0, .entry, none, none⟩, ⟨some 0, .exit, none, none⟩,
      ⟨some 0, .statement, some (.call (some (.var p)) "malloc" [.lit 8]), some ⟨"test.c", 2, 3⟩⟩]
    edges := #[⟨1, 3, .flow .always⟩, ⟨3, 2, .flow .always⟩, ⟨0, 1, .root⟩]
    functions := #[⟨0, "test", [p], [], 1, 2, none, none, none⟩]
    globals := [] }

/-- An action that stores, enters and raises before it fails, and one that shows what it finds. -/
def botched : List Outcome :=
  [.action (.ofScript "botched" false [] [.store "seen" (.bool true), .enter (.named "ptr.lost"),
      .error "lost" none, .fail "gave up"]),
    .action (.ofScript "shows" false [] [.showScratch, .enter (.named "ptr.owned")])]

/-- The machine that runs both actions for each allocation. -/
def botches : Automaton :=
  let ptr : Decl := ⟨"ptr", .anyPointer, true, none⟩
  let machine : Machine :=
    { name := "botches"
      clauses := [.decl ptr,
        .states ⟨["ptr.*"], [⟨.shape (.callResult (.decl "ptr") "malloc"), botched, none⟩], none⟩] }
  machine.automaton ptr

def allocation : Occasion :=
  let p : Expr := .var ⟨"p", some 0, .param, .pointer⟩
  let shape : Shape := .callResult (.decl "ptr") "malloc"
  { node := 3, cls := .singleton p, state := .named "ptr.start",
    rule := ⟨p, ["ptr.*"], .shape shape, botched, ⟨shape, SortedMap.empty.insert "ptr" p⟩, none,
      true⟩ }

/-- Of the first action only its failure is left, once though the edge is evaluated again for each
state and while the graph is exploded, and the second one finds nothing stored. -/
theorem failing_actions_leave_records_allocating : ∃ a,
    Analysis.solve allocating botches 1000 = .ok a ∧
    (a.refinedBy [.ofPreset .fast]).log.failures =
      [⟨"botched", "gave up", some ⟨"test.c", 2, 3⟩⟩] ∧
    (a.refinedBy [.ofPreset .fast]).log.failures.Nodup ∧
    (a.context.workspaceAfter [allocation]).log.failures =
      [⟨"botched", "gave up", some ⟨"test.c", 2, 3⟩⟩] ∧
    (a.context.workspaceAfter [allocation]).log.findings.map (·.message) = ["ns=[]"] ∧
    (a.context.applyOutcomes allocation (a.context.workspaceAfter [allocation])).2 =
      a.context.workspaceAfter [allocation] ∧
    (a.context.applyOutcomes (a.context.withoutFailing allocation)
      (a.context.workspaceAfter [allocation])).1 = .singleton (.named "ptr.owned") := by
  let record : Failure := ⟨"botched", "gave up", some ⟨"test.c", 2, 3⟩⟩
  obtain ⟨a, ha, htest⟩ := exists_eq_ok_of_any (Analysis.solve allocating botches 1000)
    (fun a => decide ((a.refinedBy [.ofPreset .fast]).log.failures = [record]) &&
      decide ((a.context.workspaceAfter [allocation]).log.failures = [record]) &&
      decide ((a.context.workspaceAfter [allocation]).log.findings.map (·.message) = ["ns=[]"]) &&
      decide ((a.context.applyOutcomes allocation (a.context.workspaceAfter [allocation])).1 =
        .singleton (.named "ptr.owned")))
    (by decide +kernel)
  simp only [Bool.and_eq_true, decide_eq_true_eq] at htest
  obtain ⟨⟨⟨hrun, hfailures⟩, hfindings⟩, hstates⟩ := htest
  obtain ⟨-, ⟨hsame, -, -⟩, -, -, hagain, hruns⟩ :=
    failing_actions_leave_records a.context [allocation] allocation
  obtain ⟨-, -, hnodup⟩ := hruns _ _ _ a ha [.ofPreset .fast]
  exact ⟨a, ha, hrun, hnodup, hfailures, hfindings, hagain (by simp), hsame.symm.trans hstates⟩

end StatesContext

end Typestate
