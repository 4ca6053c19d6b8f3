import Typestate.Exploded
import Typestate.States.Transfer

/-!
# Building an exploded graph

A reachable node of the program becomes one exploded node if none of its classes may be in
several states, and else one for each state of each class that may be: never one for each
combination. From an exploded node the states flow along each edge of the program once more.
The edge leads to every exploded node that contains what arrives, or where there is none, to
every one that is compatible with it.

The number of nodes is capped. To evaluate edges again may raise errors again.
-/

namespace Typestate

def NodeStates.explode (v : NodeStates) (n : NodeId) : List ExplodedNode :=
  if v.isUnambiguous then [⟨n, .solo, v⟩]
  else
    v.map.entries.flatMap fun (c, s) =>
      if s.size > 1 then s.toList.map fun t => ⟨n, .statewise c t, v.restrict c t⟩ else []

inductive Explosion
  | built (g : ExplodedGraph)
  | tooComplex (nodes limit : Nat)

def Explosion.overflow? (limit : Nat) : (total : Nat) → (counts : List Nat) → Option Nat
  | _, [] => none
  | total, n :: counts =>
    if total + n > limit then some (total + n) else overflow? limit (total + n) counts

namespace StatesContext

variable (ctx : StatesContext)

/-- The exploded nodes of each node of the program, in order. -/
def explodedNodes (states : NodeId → Option NodeStates) : List (List ExplodedNode) :=
  (List.range ctx.program.nodes.size).map fun n =>
    match states n with
    | some v => v.explode n
    | none => []

/-- Those of the exploded nodes of a node to which an edge that carries `v` leads. -/
def destinations (n : NodeId) (v : NodeStates) (candidates : List (NodeId × ExplodedNode)) :
    List (NodeId × ExplodedNode) :=
  let scope := ctx.program.functionIdOf n
  let containing := candidates.filter fun (_, x) =>
    x.kind = .solo || v.isSubsetOf ctx.defaults scope x.states
  if containing.isEmpty then candidates.filter fun (_, x) => v.isCompatibleWith x.states
  else containing

/-- The exploded edges that stand for an edge of the program and leave an exploded node, and
the incidents of evaluating it there. -/
def explodedEdges (nodes : SortedMap NodeId ExplodedNode) (source : NodeId) (x : ExplodedNode)
    (edge : EdgeId × NodeId) : List ExplodedEdge × List Incident :=
  let passage := ctx.transfer x.states edge.1
  match passage.result with
  | none => ([], passage.incidents)
  | some v =>
    let candidates := nodes.entries.filter (·.2.node = edge.2)
    ((ctx.destinations edge.2 v candidates).map fun (target, _) =>
      ⟨source, target, edge.1, passage.found⟩, passage.incidents)

def allExplodedEdges (nodes : SortedMap NodeId ExplodedNode) :
    List (List ExplodedEdge × List Incident) :=
  nodes.entries.flatMap fun (i, x) =>
    (ctx.program.successors x.node).map (ctx.explodedEdges nodes i x)

def explode (states : NodeId → Option NodeStates) (limit : Nat) :
    Except Fault (Explosion × List Incident) :=
  let split := ctx.explodedNodes states
  match Explosion.overflow? limit 0 (split.map List.length) with
  | some total => .ok (.tooComplex total limit, [])
  | none =>
    let nodes := SortedMap.enumerate split.flatten
    match nodes.entries.find? (·.2.node = Program.root) with
    | none => .error (.invalidGraph .stateless)
    | some (entry, _) =>
      let edges := ctx.allExplodedEdges nodes
      .ok (.built ⟨nodes, .enumerate (edges.flatMap (·.1)), entry⟩, edges.flatMap (·.2))

end StatesContext

end Typestate
