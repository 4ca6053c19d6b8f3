import Typestate.Exploded.Routes
import Typestate.Facts.Flow

/-!
# Pruning an exploded graph

Along the paths of an exploded graph, which are split by state, facts are sharper than along
those of the program. A node without possible facts is removed, and then every node that the
entry no longer reaches. This is repeated until nothing is removed.
-/

namespace Typestate

structure PruneStats where
  rounds : Nat
  infeasible : Nat
  orphaned : Nat
  iterations : Nat
  deriving DecidableEq, Repr

namespace PruneStats

def none : PruneStats := ⟨0, 0, 0, 0⟩

def add (s t : PruneStats) : PruneStats :=
  ⟨s.rounds + t.rounds, s.infeasible + t.infeasible, s.orphaned + t.orphaned,
    s.iterations + t.iterations⟩

end PruneStats

namespace ExplodedGraph

variable (g : ExplodedGraph)

/-- The facts pass over an exploded graph: an edge does what the edge of the program does
that it stands for. -/
def factsProblem (p : Program) : Dataflow Facts NodeId where
  entries := [g.entry]
  seed := fun _ => ∅
  successors := g.successors
  transfer := fun s e =>
    match g.edges.get? e with
    | some x => p.factsFlow s x.edge
    | none => (none, [])
  meet := Facts.meet

/-- Whether a node stays: it is the entry, or it has possible facts. -/
def isSupported (facts : FactsSolution) (n : NodeId) : Bool :=
  n = g.entry || (facts.value n).any Facts.isPossible

def withoutOrphans : ExplodedGraph :=
  let routes := g.routes
  g.keep routes.contains

def pruneBy (facts : FactsSolution) : ExplodedGraph × PruneStats :=
  let feasible := g.keep (g.isSupported facts)
  let left := feasible.withoutOrphans
  (left, ⟨1, g.nodes.size - feasible.nodes.size, feasible.nodes.size - left.nodes.size,
    facts.iterations⟩)

/-- Prunes for at most a number of rounds, each with a limit on the visits of its facts
pass. -/
def prune (p : Program) (limit : Nat) : (rounds : Nat) → ExplodedGraph →
    Except Fault (ExplodedGraph × PruneStats)
  | 0, g => .ok (g, .none)
  | rounds + 1, g => do
    let facts ← (g.factsProblem p).solve "exploded-facts" limit
    let (left, done) := g.pruneBy facts
    if left.nodes.size = g.nodes.size then return (left, done)
    else
      let (last, more) ← prune p limit rounds left
      return (last, done.add more)

end ExplodedGraph

end Typestate
