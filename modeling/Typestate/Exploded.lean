import Typestate.Fixpoint
import Typestate.Match
import Typestate.States

/-!
# Exploded graphs

An exploded graph refines the graph of a program: a node of the program whose classes may be
in several states is split into a node for each state of each such class. Each exploded node
and edge stands for one of the program. Nodes and edges keep their places when others are
removed, and an edge goes with either of its ends.
-/

namespace Typestate

/-- Which of the states at a node of the program an exploded node stands for. -/
inductive ExplodedKind
  | solo
  /-- Those in which a class is in the given state. -/
  | statewise (c : EquivClass) (s : State)
  deriving DecidableEq

structure ExplodedNode where
  node : NodeId
  kind : ExplodedKind
  states : NodeStates
  deriving DecidableEq

def ExplodedNode.render (x : ExplodedNode) : String :=
  match x.kind with
  | .solo => s!"{nodeName x.node} solo {x.states.render}"
  | .statewise c s => s!"{nodeName x.node} {EquivClass.render c}: {s.render}"

structure ExplodedEdge where
  source : NodeId
  target : NodeId
  edge : EdgeId
  found : List Match
  deriving DecidableEq

/-- An exploded graph. Nodes and edges are named by their places when it was built. -/
structure ExplodedGraph where
  nodes : SortedMap NodeId ExplodedNode
  edges : SortedMap EdgeId ExplodedEdge
  entry : NodeId
  deriving DecidableEq

namespace ExplodedGraph

variable (g : ExplodedGraph)

def successors (n : NodeId) : List (EdgeId × NodeId) :=
  (g.edges.entries.filter (·.2.source = n)).map fun (e, x) => (e, x.target)

def nodesFor (n : NodeId) : List (NodeId × ExplodedNode) :=
  g.nodes.entries.filter (·.2.node = n)

/-- The graph with the nodes that pass a test and the edges between them. -/
def keep (test : NodeId → Bool) : ExplodedGraph :=
  { g with
    nodes := g.nodes.filter fun n _ => test n
    edges := g.edges.filter fun _ x => test x.source && test x.target }

end ExplodedGraph

end Typestate
