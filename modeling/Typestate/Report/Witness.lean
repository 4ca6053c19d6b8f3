import Typestate.Exploded.Routes
import Typestate.Report
import Typestate.States.Finding

/-!
# Witnesses

A finding is reachable if an exploded node stands for its node with its expression in its
state and is reached from the entry. A shortest route to the nearest such node is the witness.
Walked backwards, the witness tells which expression stands for the erroneous value at each
step; walked forwards, where the states of that expression change and where control enters or
leaves a function.
-/

namespace Typestate

namespace ExplodedNode

variable (x : ExplodedNode)

def isFor (c : EquivClass) (s : State) : Bool := x.kind = .statewise c s

/-- Whether a node stands for the state of a finding, in its class or in the class that holds
its expression at the node. -/
def standsFor (f : Finding) : Bool :=
  x.isFor f.cls f.state || (x.states.classOf f.expr).any (x.isFor · f.state)

def holds (f : Finding) : Bool := (x.states.statesOf f.expr).any fun s => f.state ∈ s

end ExplodedNode

namespace ExplodedGraph

variable (g : ExplodedGraph)

/-- The nearest node that passes a test among those that stand for the node of a finding. -/
def closest? (r : Routes) (f : Finding) (test : ExplodedNode → Bool) : Option NodeId :=
  r.closest? (((g.nodesFor f.node).filter fun (_, x) => test x).map (·.1))

/-- The nearest node for the state of a finding, or else the nearest at which the state is one
of several. -/
def target? (r : Routes) (f : Finding) : Option NodeId :=
  (g.closest? r f (·.standsFor f)).or (g.closest? r f (·.holds f))

end ExplodedGraph

namespace Program

variable (p : Program)

/-- The argument of the call at a node that a parameter stands for, or the expression itself
if it is no parameter. -/
def argumentFor (call entry : NodeId) (e : Expr) : Expr :=
  match p.functionOf entry, p.callAt call with
  | some callee, some (_, args) =>
    ((callee.paramExprs.zip args).find? (·.1 = e)).elim e fun (_, arg) => arg.simplify
  | _, _ => e

/-- What an expression of the caller is in the callee that a call returns from: the returned
value if it is the result, and the parameter if it is an argument. -/
def calleeSide (call exit : NodeId) (e : Expr) : Expr :=
  match p.functionOf exit, p.callAt call with
  | some callee, some (result, args) =>
    match callee.returned with
    | some value =>
      if result.map Expr.simplify = some e then value.simplify
      else parameter callee args
    | none => parameter callee args
  | _, _ => e
where
  parameter (callee : Function) (args : List Expr) : Expr :=
    ((callee.paramExprs.zip args).find? (·.2.simplify = e)).elim e (·.1)

def copiedFrom (n : NodeId) (e : Expr) : Expr :=
  match p.stmtAt n with
  | some (.assign target (.use value)) | some (.phi target value) =>
    if target.simplify = e then
      match value.simplify with
      | .var v => .var v
      | .ssa v k => .ssa v k
      | _ => e
    else e
  | _ => e

/-- The expression that holds before an edge what another holds after it. -/
def exprBefore (edge : EdgeId) (e : Expr) : Expr :=
  match p.edges[edge]? with
  | none => e
  | some x =>
    match x.kind with
    | .enter => p.argumentFor x.source x.target e
    | .leave call => p.calleeSide call x.source e
    | _ => p.copiedFrom x.source e

end Program

def Program.functionOfFinding (p : Program) (f : Finding) : Option Function :=
  (f.function.bind (p.functions[·]?)).or (p.functionOf f.node)

/-- A step of a witness: an edge, and the expression of interest before and after it. -/
structure WitnessStep where
  edge : ExplodedEdge
  before : Expr
  after : Expr

/-- The expression of interest at the start of a path and the steps of the path, given the
expression at its end. -/
def Program.witnessSteps (p : Program) (path : List ExplodedEdge) (e : Expr) :
    Expr × List WitnessStep :=
  path.foldr (fun x (after, steps) =>
    let before := p.exprBefore x.edge after
    (before, ⟨x, before, after⟩ :: steps)) (e, [])

def describingMatch (l : List Match) (v : NodeStates) (e : Expr) : Option Match :=
  let c := v.classOf e
  l.find? fun m => m.bindings.values.any fun bound =>
    bound.simplify = e || c.any (bound.simplify ∈ ·)

def changeText (e : Expr) (s : Option States) : String :=
  match (s.getD ∅).toList.map State.name with
  | [] => s!"state of {e.render} changes"
  | names => s!"{e.render} becomes " ++ " or ".intercalate names

namespace ExplodedGraph

variable (g : ExplodedGraph) (p : Program)

/-- The note of a step, if anything is to be noted and its source has a place. -/
def noteOf (step : WitnessStep) : Option Note := do
  let source ← g.nodes.get? step.edge.source
  let target ← g.nodes.get? step.edge.target
  let edge ← p.edges[step.edge.edge]?
  let place ← p.locationOf source.node
  match edge.kind with
  | .enter =>
    let callee ← p.functionOf target.node
    if step.before = step.after then return ⟨place, s!"call to {callee.name}()"⟩
    else
      return ⟨place, s!"{step.before.render} passed to {callee.name}() as {step.after.render}"⟩
  | .leave _ =>
    let callee ← p.functionOf source.node
    return ⟨place, s!"returning from {callee.name}()"⟩
  | kind =>
    let states := target.states.statesOf step.after
    if source.states.statesOf step.before = states then none
    else
      match describingMatch step.edge.found source.states step.before with
      | some m => return ⟨place, m.description kind.branch?⟩
      | none => return ⟨place, changeText step.after states⟩

/-- The notes along a path to a finding. The finding itself is the last, if there are others
and it has a place. -/
def notes (path : List ExplodedEdge) (f : Finding) (place : Option Location) : List Note :=
  match ((p.witnessSteps path f.expr.simplify).2).filterMap (g.noteOf p) with
  | [] => []
  | notes => notes ++ (place.map fun l => ⟨l, f.message⟩).toList

/-- The report of a finding, if it is reachable. A finding without a place is put at the end
of its function, or else at its start. -/
def report? (r : Routes) (machine : String) (withNotes : Bool) (f : Finding) :
    Option Report := do
  let target ← g.target? r f
  let path ← r.path target
  let function := p.functionOfFinding f
  let place := f.location.or (function.bind fun fn => fn.endLocation.or fn.location)
  return { machine
           function := function.map (·.name)
           location := place
           message := f.message
           cwe := f.cwe
           notes := if withNotes then g.notes p (path.filterMap g.edges.get?) f place else [] }

end ExplodedGraph

end Typestate
