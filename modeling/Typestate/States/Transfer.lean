import Typestate.Fixpoint
import Typestate.States.Firing

/-!
# States along an edge

An edge that cannot be taken carries nothing. Into a callee, a parameter takes the states of
its argument; out of it, an argument takes those of its parameter and the result those of the
returned value. A copy takes the states of its source, and only then do locals that go out of
scope leak. Along any other edge inside a function the rules fire that may.

In between, states are kept for each expression. At the target they are gathered into the
classes there; a class of another function travels along as it is.
-/

namespace Typestate

/-- What an edge carries: the states at its target, the matches of the rules that fired and
incidents. -/
structure Passage where
  result : Option NodeStates
  found : List Match
  incidents : List Incident

def Passage.blocked : Passage := ⟨none, [], []⟩

def Passage.quiet (result : Option NodeStates) : Passage := ⟨result, [], []⟩

/-- The variable whose states a copy of a canonical expression takes: the expression itself,
or what it is a member of. -/
def Expr.copySource : Expr → Option Expr
  | var v => some (var v)
  | ssa v k => some (ssa v k)
  | field e _ _ => e.copySource
  | _ => none

def Statement.copy? : Statement → Option (Expr × Expr)
  | assign target (.use value) | phi target value =>
    value.simplify.copySource.map fun source => (target.simplify, source)
  | _ => none

namespace NodeStates

variable (v : NodeStates)

def flatten (scope : Option FunctionId) : ExprStates :=
  v.map.entries.foldl (fun m (c, s) =>
    if EquivClass.isInScope c scope then
      c.toList.foldl (fun m e => m.insert e (((m.get? e).getD ∅).union s)) m
    else m) ∅

def carried (scope : Option FunctionId) : ClassStates :=
  v.map.filter fun c _ => !EquivClass.isInScope c scope

def without (f : FunctionId) : NodeStates :=
  { v with map := v.map.filter fun c _ => EquivClass.owner c ≠ some f }

/-- The first expression of each pair takes the states of the second, if that has any. -/
def handOver (pairs : List (Expr × Expr)) (exprs : ExprStates) : ExprStates :=
  pairs.foldl (fun m (target, source) =>
    match v.statesOf source with
    | some s => m.insert target s
    | none => m) exprs

end NodeStates

namespace StatesContext

variable (ctx : StatesContext)

def gather (exprs : ExprStates) (c : EquivClass) : States :=
  let s := c.toList.foldl (fun s e => s.union ((exprs.get? e).getD ∅)) ∅
  if s.isEmpty then ctx.defaults else s

/-- The states at a node, given those of expressions and of the classes carried along. -/
def regroup (n : NodeId) (exprs : ExprStates) (extra : ClassStates) : NodeStates :=
  ⟨n, (SortedMap.tabulate (ctx.gather exprs) (ctx.classesAt n)).merge .union
    (fun _ s => s) extra⟩

def pass (v : NodeStates) (target : NodeId) : NodeStates :=
  let scope := ctx.program.functionIdOf target
  ctx.regroup target (v.flatten scope) (v.carried scope)

/-- The states at the entry of a callee. In a recursive call the classes of the caller's own
frame do not travel on. -/
def enter (v : NodeStates) (call entry : NodeId) : Option NodeStates := do
  let callee ← ctx.program.functionOf entry
  let (_, args) ← ctx.program.callAt call
  let rest := v.without callee.id
  let exprs := v.handOver (callee.paramExprs.zip args) (rest.flatten callee.id)
  return ctx.regroup entry exprs (rest.carried callee.id)

def returnedStates (v : NodeStates) (callee : Function) : States :=
  (callee.returned.bind v.statesOf).getD ctx.defaults

def leave (v : NodeStates) (exit returnSite call : NodeId) : Option NodeStates := do
  let callee ← ctx.program.functionOf exit
  let (result, args) ← ctx.program.callAt call
  let scope := ctx.program.functionIdOf returnSite
  let rest := v.without callee.id
  let exprs := v.handOver ((args.map Expr.simplify).zip callee.paramExprs) (rest.flatten scope)
  let exprs := match result with
    | some e => exprs.insert e.simplify (ctx.returnedStates v callee)
    | none => exprs
  return ctx.regroup returnSite exprs (rest.carried scope)

def copied (v : NodeStates) (next : NodeId) (target source : Expr) : NodeStates :=
  let scope := ctx.program.functionIdOf next
  let s := (v.statesOf source).getD ctx.defaults
  ctx.regroup next ((v.flatten scope).insert target s) (v.carried scope)

/-- The states after those of a list of rules that fire at a node. -/
def applied (v : NodeStates) (n next : NodeId) (l : List PossibleMatch) : Passage :=
  let scope := ctx.program.functionIdOf next
  let r := ctx.applyRules n v l (v.flatten scope)
  ⟨ctx.regroup next r.exprs (v.carried scope), r.found, r.incidents⟩

def flow (v : NodeStates) (e : EdgeId) (n next : NodeId) : Passage :=
  match (ctx.program.stmtAt n).bind Statement.copy? with
  | none => ctx.applied v n next (ctx.possibleAt e)
  | some (target, source) =>
    let c := ctx.copied v next target source
    let leaked := ctx.applied c n next ((ctx.possibleAt e).filter (·.isLeakRule))
    if leaked.found.isEmpty then { leaked with result := c } else leaked

def transfer (v : NodeStates) (e : EdgeId) : Passage :=
  match ctx.program.edges[e]? with
  | none => .blocked
  | some edge =>
    if ctx.isFeasible e then
      match edge.kind with
      | .callToReturn => .blocked
      | .root => .quiet (ctx.pass v edge.target)
      | .enter => .quiet (ctx.enter v edge.source edge.target)
      | .leave call => .quiet (ctx.leave v edge.source edge.target call)
      | .flow _ => ctx.flow v e edge.source edge.target
    else .blocked

def meet (v w : NodeStates) : NodeStates :=
  v.meet ctx.defaults (ctx.program.functionIdOf v.node) w

def problem : Dataflow NodeStates Incident where
  entries := [Program.root]
  seed := ctx.initial
  successors := ctx.program.successors
  transfer := fun v e =>
    let passage := ctx.transfer v e
    (passage.result, passage.incidents)
  meet := ctx.meet

end StatesContext

abbrev StatesSolution := Solution NodeStates Incident

end Typestate
