import Typestate.Match.Possible
import Typestate.States

/-!
# What the states pass reads

Before states flow, the facts decide which edges can be taken, into which classes the tracked
expressions of each node fall, and which rules may fire along each edge. All this is computed
once for a program and an automaton.
-/

namespace Typestate

/-- The variables that a function declares and a declaration accepts, temporaries apart. -/
def Function.declaredTracked (f : Function) (d : Decl) : List Expr :=
  (((f.params ++ f.locals).filter (·.storage ≠ .temporary)).map fun v =>
    (Expr.var v).simplify).filter d.accepts

/-- The classes of a list of expressions under the equalities between other expressions than
literals. -/
def Facts.varClassesOf (s : Facts) (l : List Expr) : SortedSet EquivClass :=
  let classes := s.varClasses
  .ofList (l.map fun e => (classes.classOf e.simplify).getD (.singleton e.simplify))

namespace Program

variable (p : Program)

/-- The variables, and versions of them, that the statements of a function speak of and a
declaration accepts. -/
def mentionedTracked (d : Decl) (f : FunctionId) : List Expr :=
  (p.nodes.toList.filter (·.function = some f)).flatMap fun n =>
    ((n.stmt.map Statement.subexprs).getD []).filter fun e =>
      e.asVariable.any (·.owner.isSome) && d.accepts e

/-- The expressions of a function whose states are tracked. -/
def tracked (d : Decl) (f : Function) : SortedSet Expr :=
  .ofList (f.declaredTracked d ++ p.mentionedTracked d f.id)

def trackedGlobals (d : Decl) : List Expr := (p.globals.map Expr.var).filter d.accepts

/-- Whether an edge can be taken: both its ends are reachable and the facts along it are
possible. -/
def isFeasible (facts : NodeId → Option Facts) (e : EdgeId) : Bool :=
  match p.edges[e]? with
  | none => false
  | some edge =>
    match facts edge.source, facts edge.target with
    | some s, some _ => (p.factsAfter s e).any Facts.isPossible
    | _, _ => false

end Program

structure StatesContext where
  program : Program
  automaton : Automaton
  facts : FactsSolution
  leaks : Array (List Expr)
  possible : Array (List PossibleMatch)
  classes : Array (SortedSet EquivClass)
  feasible : Array Bool

namespace StatesContext

def of (p : Program) (a : Automaton) (facts : FactsSolution) : StatesContext :=
  let edges := Array.range p.edges.size
  let leaks := edges.map (p.leaksAt a.stateful facts.value)
  let globals := p.trackedGlobals a.stateful
  let tracked := p.functions.map fun f => (p.tracked a.stateful f).toList
  { program := p
    automaton := a
    facts
    leaks
    possible := edges.map fun e => a.possibleAt p (leaks[e]?.getD []) e
    classes := (Array.range p.nodes.size).map fun n =>
      match facts.value n with
      | none => ∅
      | some s =>
        s.varClassesOf (((p.functionIdOf n).bind (tracked[·]?)).getD [] ++ globals)
    feasible := edges.map (p.isFeasible facts.value) }

variable (ctx : StatesContext)

def leaksAt (e : EdgeId) : List Expr := ctx.leaks[e]?.getD []

def possibleAt (e : EdgeId) : List PossibleMatch := ctx.possible[e]?.getD []

/-- The classes of the tracked expressions in scope at a node. -/
def classesAt (n : NodeId) : SortedSet EquivClass := ctx.classes[n]?.getD ∅

def isFeasible (e : EdgeId) : Bool := ctx.feasible[e]?.getD false

/-- The states of an expression about which nothing is known. -/
def defaults : States := .singleton ctx.automaton.default

def initial (n : NodeId) : NodeStates :=
  ⟨n, .tabulate (fun _ => ctx.defaults) (ctx.classesAt n)⟩

end StatesContext

end Typestate
