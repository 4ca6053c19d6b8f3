import Typestate.Exploded

/-!
# Shortest routes

A breadth-first search from the entry of an exploded graph gives each node that it reaches a
shortest route. The search goes on in layers: the targets of a layer's edges that have no
route yet form the next layer, in the order in which they are met. A route is stored from its
end, so that it is extended in front and shares its rest with the routes it came from.
-/

namespace Typestate

/-- Routes from the entry to nodes, each with its last edge first. -/
abbrev Routes := SortedMap NodeId (List EdgeId)

namespace Routes

variable (r : Routes)

def distance (n : NodeId) : Option Nat := (r.get? n).map List.length

def path (n : NodeId) : Option (List EdgeId) := (r.get? n).map List.reverse

/-- The nearer of the nearest node so far, if there is one, and another; the earlier of two at
the same distance. -/
def nearer (best : Option NodeId) (n : NodeId) : Option NodeId :=
  match best.bind r.distance, r.distance n with
  | some d, some d' => if d' < d then some n else best
  | none, some _ => some n
  | _, none => best

/-- The nearest of a list of nodes, the first such; none if no node is reached. -/
def closest? (l : List NodeId) : Option NodeId := l.foldl r.nearer none

end Routes

structure Search where
  routes : Routes
  layer : List NodeId

namespace Search

def visit (route : List EdgeId) (s : Search) (edge : EdgeId × NodeId) : Search :=
  if s.routes.contains edge.2 then s
  else ⟨s.routes.insert edge.2 (edge.1 :: route), s.layer ++ [edge.2]⟩

def expand (g : ExplodedGraph) (s : Search) (n : NodeId) : Search :=
  match s.routes.get? n with
  | some route => (g.successors n).foldl (visit route) s
  | none => s

def next (g : ExplodedGraph) (s : Search) : Search :=
  s.layer.foldl (expand g) { s with layer := [] }

/-- Goes on for a number of layers, or until a layer is empty. -/
def run (g : ExplodedGraph) : Nat → Search → Search
  | 0, s => s
  | fuel + 1, s => if s.layer.isEmpty then s else run g fuel (s.next g)

end Search

/-- Shortest routes from the entry. No route is longer than there are nodes. -/
def ExplodedGraph.routes (g : ExplodedGraph) : Routes :=
  (Search.run g g.nodes.size ⟨SortedMap.empty.insert g.entry [], [g.entry]⟩).routes

end Typestate
