import Typestate.Exploded.Build
import Typestate.Exploded.Prune
import Typestate.Report.Witness
import Typestate.Settings

/-!
# Analyses

A run of a machine over a program: the facts pass, the rules that may fire, the states pass
with its findings, and the exploded graph, which tells the findings that can happen from
those that cannot. Whoever explodes the graph evaluates edges again, so the log may grow.
-/

namespace Typestate

/-- The result of the facts and states passes. -/
structure Analysis where
  context : StatesContext
  states : StatesSolution
  log : Log

/-- A graph that was exploded and pruned, or why it was not. -/
inductive Refinement
  | pruned (g : ExplodedGraph) (stats : PruneStats)
  | tooComplex (nodes limit : Nat)

namespace Analysis

def contextOf (p : Program) (a : Automaton) (limit : Nat) : Except Fault StatesContext := do
  let facts ← p.factsProblem.solve "facts" limit
  return .of p a facts

def solve (p : Program) (a : Automaton) (limit : Nat) : Except Fault Analysis := do
  let context ← contextOf p a limit
  let states ← context.problem.solve "states" limit
  return ⟨context, states, .ofList states.events⟩

variable (a : Analysis)

def factsAt (n : NodeId) : Option Facts := a.context.facts.value n

def statesAt (n : NodeId) : Option NodeStates := a.states.value n

def statesOf (n : NodeId) (e : Expr) : Option States := (a.statesAt n).bind (·.statesOf e)

/-- The names of the states of an expression at a node, none if it has no states. -/
def stateNames (n : NodeId) (e : Expr) : SortedSet String :=
  .ofList (((a.statesOf n e).getD ∅).toList.map State.name)

/-- Explodes the graph of the program and prunes it. The incidents of exploding it stay in the
log, also if pruning fails. -/
def refine (s : Settings) : Except Fault Refinement × Analysis :=
  match a.context.explode a.states.value s.maxExploded with
  | .error f => (.error f, a)
  | .ok (.tooComplex nodes limit, _) => (.ok (.tooComplex nodes limit), a)
  | .ok (.built g, incidents) =>
    let pruned := g.prune a.context.program s.maxVisits s.maxRounds
    (pruned.map fun (g, stats) => .pruned g stats, { a with log := a.log.addAll incidents })

/-- Whether a finding can happen. A graph too complex to explode disproves nothing. -/
def isReachable (s : Settings) (f : Finding) : Except Fault Bool × Analysis :=
  let (r, after) := a.refine s
  (r.map fun
    | .pruned g _ => (g.target? g.routes f).isSome
    | .tooComplex _ _ => true, after)

end Analysis

structure RunStats where
  programNodes : Nat
  programEdges : Nat
  factsVisits : Nat
  statesVisits : Nat
  leaked : Nat
  possible : Nat
  explodedNodes : Nat
  explodedEdges : Nat
  rounds : Nat
  pruned : Nat
  explodedVisits : Nat
  found : Nat
  reported : Nat
  deriving DecidableEq, Repr

structure RunReport where
  machine : String
  /-- The reports of the findings that can happen, in the order of their places. -/
  reports : List Report
  suppressed : List Finding
  failures : List Failure
  stats : RunStats
  deriving DecidableEq

inductive SizeLimit
  | program | exploded
  deriving DecidableEq, Repr

inductive RunOutcome
  | analyzed (r : RunReport)
  | tooComplex (which : SizeLimit) (nodes limit : Nat)
  | unreachable
  deriving DecidableEq

namespace ExplodedGraph

/-- The reports of those findings that can happen, and the others. -/
def judge (g : ExplodedGraph) (p : Program) (machine : String) (withNotes : Bool)
    (l : List Finding) : List Report × List Finding :=
  let routes := g.routes
  let verdicts := l.map fun f => (f, g.report? p routes machine withNotes f)
  (verdicts.filterMap (·.2), (verdicts.filter (·.2.isNone)).map (·.1))

end ExplodedGraph

namespace Analysis

variable (a : Analysis)

/-- Whether some function is reached from the root. -/
def isLive : Bool := a.context.program.functions.toList.any fun f => (a.factsAt f.entry).isSome

def conclude (s : Settings) (g : ExplodedGraph) (stats : PruneStats) : RunReport :=
  let ctx := a.context
  let findings := Finding.sort a.log.findings
  let (reports, suppressed) := g.judge ctx.program ctx.automaton.name s.notes findings
  { machine := ctx.automaton.name
    reports
    suppressed
    failures := a.log.failures
    stats :=
      { programNodes := ctx.program.nodes.size
        programEdges := ctx.program.edges.size
        factsVisits := ctx.facts.iterations
        statesVisits := a.states.iterations
        leaked := ctx.leaks.toList.flatten.length
        possible := ctx.possible.toList.flatten.length
        explodedNodes := g.nodes.size
        explodedEdges := g.edges.size
        rounds := stats.rounds
        pruned := stats.infeasible + stats.orphaned
        explodedVisits := stats.iterations
        found := findings.length
        reported := reports.length } }

def run (p : Program) (m : Automaton) (s : Settings) : Except Fault RunOutcome :=
  if p.nodes.size > s.maxNodes then .ok (.tooComplex .program p.nodes.size s.maxNodes)
  else
    match solve p m s.maxVisits with
    | .error f => .error f
    | .ok a =>
      if a.isLive then
        match a.refine s with
        | (.error f, _) => .error f
        | (.ok (.tooComplex nodes limit), _) => .ok (.tooComplex .exploded nodes limit)
        | (.ok (.pruned g stats), after) => .ok (.analyzed (after.conclude s g stats))
      else .ok .unreachable

end Analysis

/-- Checks settings and compiles a machine, in this order. -/
def Machine.prepare (m : Machine) (s : Settings) : Except Fault Automaton :=
  match s.validate with
  | .error e => .error (.settings e)
  | .ok _ => m.compile

/-- Runs each of a list of machines over a program. All machines are prepared before the
first one runs. -/
def checkAll (machines : List Machine) (p : Program) (s : Settings) :
    Except Fault (List (String × RunOutcome)) := do
  let automata ← machines.mapM (·.prepare s)
  automata.mapM fun a => return (a.name, ← Analysis.run p a s)

end Typestate
