import Typestate.States.Firing

/-!
# The workspace of actions

The actions of a run share one scratch space and one log. The outcomes of a rule that fires are
performed one after another: an action finds what is in the scratch space, and the space is cleared
when it ends. Of an action that fails only a failure is recorded; of any other the states that it
entered become the result, and its errors are recorded.
-/

namespace Typestate

/-- How a run of an action that finds a scratch space ends, and what it has done. -/
def Action.runIn (a : Action) (scratch : SortedMap String Datum) (view : ActionView) :
    Except ActionError Unit × Effects :=
  ((a.body.run view).run).run { Effects.none with scratch }

/-- What all actions of a run share. -/
structure Workspace where
  scratch : SortedMap String Datum
  log : Log

namespace Workspace

variable (w : Workspace)

def fresh : Workspace := ⟨∅, .empty⟩

def cleared : Workspace := { w with scratch := ∅ }

def record (i : Incident) : Workspace := { w with log := w.log.add i }

end Workspace

structure Occasion where
  node : NodeId
  cls : EquivClass
  state : State
  rule : PossibleMatch

namespace StatesContext

variable (ctx : StatesContext)

def viewOn (o : Occasion) : ActionView := ctx.viewAt o.node o.rule o.state

/-- Performs an outcome on the workspace and the states that the outcomes before it left. -/
def perform (o : Occasion) (before : States × Workspace) : Outcome → States × Workspace
  | .goto t => (.singleton t, before.2)
  | .guarded _ _ => before
  | .action a =>
    let (result, effects) := a.runIn before.2.scratch (ctx.viewOn o)
    let left := { before.2 with scratch := effects.scratch }.cleared
    match result with
    | .error e =>
      (before.1, left.record (.failure ⟨a.name, e.message, ctx.program.locationOf o.node⟩))
    | .ok _ =>
      (if effects.states.isEmpty then before.1 else .ofList effects.states,
        effects.raised.foldl
          (fun w r => w.record (.finding (ctx.findingAt o.node o.cls o.rule o.state r))) left)

def performAll (o : Occasion) (w : Workspace) (l : List Outcome) : States × Workspace :=
  l.foldl (ctx.perform o) (.singleton o.state, w)

/-- The states that a rule that fires leads to, and the workspace that it leaves. -/
def applyOutcomes (o : Occasion) (w : Workspace) : States × Workspace :=
  ctx.performAll o w o.rule.outcomes

/-- The workspace after the rules of a history have fired. -/
def workspaceAfter (history : List Occasion) : Workspace :=
  history.foldl (fun w o => (ctx.applyOutcomes o w).2) .fresh

end StatesContext

end Typestate
