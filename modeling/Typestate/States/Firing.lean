import Typestate.States.Context
import Typestate.States.Finding

/-!
# Rules that fire

A rule fires in a state that its clause accepts. Its outcomes run in order, each starting
from what the ones before it left: a state to go to replaces the result, and so do the states
that an action enters. A failing action is skipped with all its effects.

Rules are applied in groups: expressions that change together form the targets of a group. A
rule whose expression is written by the statement has that expression as its only target; any
other rule changes the whole class.
-/

namespace Typestate

abbrev ExprStates := SortedMap Expr States

/-- What firing rules leaves: the states entered, the matches of the rules and incidents. -/
structure Firing where
  states : States
  found : List Match
  incidents : List Incident

namespace Firing

def none : Firing := ⟨∅, [], []⟩

def append (x y : Firing) : Firing :=
  ⟨x.states.union y.states, x.found ++ y.found, x.incidents ++ y.incidents⟩

def join (l : List Firing) : Firing := l.foldl append none

end Firing

/-- Rules that change the states of the same targets. -/
structure RuleGroup where
  /-- The class whose states decide which of the rules apply. -/
  cls : EquivClass
  rules : List PossibleMatch

namespace NodeStates

variable (v : NodeStates)

/-- The expressions that a rule changes, which are in a class. -/
def targets (c : EquivClass) (m : PossibleMatch) : EquivClass :=
  if m.assigns then .singleton m.expr.simplify else c

def addRule (groups : SortedMap EquivClass RuleGroup) (m : PossibleMatch) :
    SortedMap EquivClass RuleGroup :=
  match v.classOf m.expr with
  | none => groups
  | some c =>
    let g := (groups.get? (targets c m)).getD ⟨c, []⟩
    groups.insert (targets c m) { g with rules := g.rules ++ [m] }

def groupRules (l : List PossibleMatch) : SortedMap EquivClass RuleGroup := l.foldl v.addRule ∅

end NodeStates

namespace StatesContext

variable (ctx : StatesContext)

/-- What an action looks at when a rule fires at a node. -/
def viewAt (n : NodeId) (m : PossibleMatch) (s : State) : ActionView :=
  ⟨m.found.bindings, m.expr, s, ctx.program.locationOf n⟩

def findingAt (n : NodeId) (c : EquivClass) (m : PossibleMatch) (s : State) (r : Raised) :
    Finding where
  node := n
  function := ctx.program.functionIdOf n
  cls := c
  expr := m.expr
  state := s
  message := r.message
  cwe := r.cwe
  found := m.found
  location := ctx.program.locationOf n
  rule := m.location

/-- Runs an outcome. The states change unless it enters none. -/
def runOutcome (n : NodeId) (c : EquivClass) (m : PossibleMatch) (s : State)
    (before : States × List Incident) : Outcome → States × List Incident
  | .goto t => (.singleton t, before.2)
  | .guarded _ _ => before
  | .action a =>
    match a.run (ctx.viewAt n m s) with
    | (.error e, _) =>
      (before.1, before.2 ++ [.failure ⟨a.name, e.message, ctx.program.locationOf n⟩])
    | (.ok _, effects) =>
      (if effects.states.isEmpty then before.1 else .ofList effects.states,
        before.2 ++ effects.raised.map fun r => .finding (ctx.findingAt n c m s r))

def fire (n : NodeId) (c : EquivClass) (s : State) (m : PossibleMatch) : Firing :=
  let (states, incidents) := m.outcomes.foldl (ctx.runOutcome n c m s) (.singleton s, [])
  ⟨states, [m.found], incidents⟩

/-- Fires those rules of a group that apply in a state. A state in which none does stays. -/
def fireIn (n : NodeId) (g : RuleGroup) (s : State) : Firing :=
  let firing := g.rules.filter (·.appliesTo s)
  if firing.isEmpty then ⟨.singleton s, [], []⟩ else .join (firing.map (ctx.fire n g.cls s))

def fireGroup (n : NodeId) (g : RuleGroup) (current : States) : Firing :=
  .join (current.toList.map (ctx.fireIn n g))

/-- What applying rules leaves: the states of expressions, the matches of the rules that
fired and incidents. -/
structure Applied where
  exprs : ExprStates
  found : List Match
  incidents : List Incident

/-- Applies a group of rules to the states at a node. -/
def applyGroup (n : NodeId) (v : NodeStates) (r : Applied) (group : EquivClass × RuleGroup) :
    Applied :=
  match v.map.get? group.2.cls with
  | none => r
  | some current =>
    let fired := ctx.fireGroup n group.2 current
    { exprs := group.1.toList.foldl (fun m e => m.insert e fired.states) r.exprs
      found := (r.found ++ fired.found).eraseDups
      incidents := r.incidents ++ fired.incidents }

def applyRules (n : NodeId) (v : NodeStates) (l : List PossibleMatch) (exprs : ExprStates) :
    Applied :=
  (v.groupRules l).entries.foldl (ctx.applyGroup n v) ⟨exprs, [], []⟩

end StatesContext

end Typestate
