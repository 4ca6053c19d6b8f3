import Typestate.Fault
import Typestate.Program
import Typestate.Sorted.Map

/-!
# Fixed points of dataflow problems

A dataflow problem gives each entry of a graph a value, each edge a transfer of values, and
a meet for values that arrive at one node. A node without a value is unreachable. The solver
keeps a list of nodes to visit and takes the one put on it last; a visit transfers the
node's value along its edges and puts the targets whose value changes back on the list. It
is done when the list is empty, and gives up when a visit exceeds the limit.

A transfer also emits events, such as findings. The solution lists the events of all
transfers and all changes of values, each in the order in which they came about.
-/

namespace Typestate

structure Dataflow (V ω : Type) where
  entries : List NodeId
  seed : NodeId → V
  successors : NodeId → List (EdgeId × NodeId)
  /-- The value that flows along an edge, if the edge can be taken. -/
  transfer : V → EdgeId → Option V × List ω
  meet : V → V → V

structure Change (V : Type) where
  node : NodeId
  old : Option V
  new : V
  deriving DecidableEq, Repr

/-- The state of the solver. All its lists have the latest item first. -/
structure Iteration (V ω : Type) where
  values : SortedMap NodeId V
  pending : List NodeId
  visits : List NodeId
  changes : List (Change V)
  events : List ω

/-- The values at the nodes, and how the solver came by them. -/
structure Solution (V ω : Type) where
  values : SortedMap NodeId V
  visits : List NodeId
  seeds : List (Change V)
  changes : List (Change V)
  events : List ω

namespace Solution

variable {V ω : Type} (s : Solution V ω)

def value (n : NodeId) : Option V := s.values.get? n

def iterations : Nat := s.visits.length

def updates : Nat := s.changes.length

def reachable : Nat := s.values.size

def trace : List (Change V) := s.seeds ++ s.changes

end Solution

namespace Iteration

variable {V ω : Type}

def push (n : NodeId) (it : Iteration V ω) : Iteration V ω :=
  if n ∈ it.pending then it else { it with pending := n :: it.pending }

/-- Sets the value of a node and puts the node on the list. -/
def set (n : NodeId) (v : V) (it : Iteration V ω) : Iteration V ω :=
  { it with values := it.values.insert n v }.push n

end Iteration

namespace Dataflow

variable {V ω : Type} (d : Dataflow V ω)

def seeds : List (Change V) := d.entries.map fun n => ⟨n, none, d.seed n⟩

def start : Iteration V ω :=
  d.entries.foldl (fun it n => it.set n (d.seed n)) ⟨∅, [], [], [], []⟩

variable [DecidableEq V]

/-- Transfers a value along one edge and meets it into the value of the target. -/
def step (source : V) (it : Iteration V ω) (edge : EdgeId × NodeId) : Iteration V ω :=
  let (result, events) := d.transfer source edge.1
  let it := { it with events := events.reverse ++ it.events }
  match result with
  | none => it
  | some v =>
    let old := it.values.get? edge.2
    let new := match old with
      | some o => d.meet o v
      | none => v
    if old = some new then it
    else { it with changes := ⟨edge.2, old, new⟩ :: it.changes }.set edge.2 new

def visit (n : NodeId) (it : Iteration V ω) : Iteration V ω :=
  match it.values.get? n with
  | none => it
  | some v => (d.successors n).foldl (d.step v) { it with visits := n :: it.visits }

/-- Visits nodes until none is left; `none` when that takes more visits than allowed. -/
def iterate : Nat → Iteration V ω → Option (Iteration V ω)
  | allowed, it =>
    match it.pending with
    | [] => some it
    | n :: rest =>
      match allowed with
      | 0 => none
      | allowed + 1 => iterate allowed (d.visit n { it with pending := rest })

/-- The solution of a problem, or the fault that `limit` visits are not enough for it. -/
def solve (pass : String) (limit : Nat) : Except Fault (Solution V ω) :=
  match d.iterate limit d.start with
  | none => .error (.notConverged pass limit)
  | some it => .ok ⟨it.values, it.visits.reverse, d.seeds, it.changes.reverse, it.events.reverse⟩

def defaultLimit : Nat := 100000

end Dataflow

end Typestate
