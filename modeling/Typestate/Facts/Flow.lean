import Typestate.Facts.Call
import Typestate.Fixpoint

/-!
# The facts pass

Facts flow along the edges of a program graph from the root, where nothing is known. An edge
whose facts are contradictory cannot be taken. The same transfer serves a refinement of the
graph, through the program edge that each of its edges refines.
-/

namespace Typestate

namespace Program

variable (p : Program)

/-- The facts after an edge, before the question whether they are possible. An edge that
makes no sense where it stands has none. -/
def factsAfter (s : Facts) (e : EdgeId) : Option Facts := do
  let edge ← p.edges[e]?
  match edge.kind with
  | .root => some s
  | .enter =>
    let callee ← p.functionOf edge.target
    let caller ← p.functionIdOf edge.source
    let (_, args) ← p.callAt edge.source
    some (s.enter caller callee args)
  | .leave call =>
    let callee ← p.functionOf edge.source
    let caller ← p.functionIdOf call
    let (result, args) ← p.callAt call
    some (s.leave caller callee result args)
  | kind =>
    match p.stmtAt edge.source with
    | none => some s
    | some stmt => some (s.afterStatement kind stmt)

/-- The node at which an edge's statement makes the facts forget something for lack of a
rule, if it does. -/
def factsLost (e : EdgeId) : Option NodeId := do
  let edge ← p.edges[e]?
  match p.stmtAt edge.source with
  | some (.assign _ value) =>
    if Facts.isUntracked value && !edge.kind.isInterprocedural then some edge.source else none
  | _ => none

def factsFlow (s : Facts) (e : EdgeId) : Option Facts × List NodeId :=
  ((p.factsAfter s e).filter Facts.isPossible, (p.factsLost e).toList)

variable {p} in
theorem factsFlow_eq_some {s t : Facts} {e : EdgeId} :
    (p.factsFlow s e).1 = some t ↔ p.factsAfter s e = some t ∧ t.isPossible = true := by
  rw [factsFlow, Option.filter_eq_some_iff]

def successors (n : NodeId) : List (EdgeId × NodeId) :=
  (p.outEdges n).filterMap fun e => p.edges[e]?.map fun edge => (e, edge.target)

/-- The dataflow problem of the facts pass. Its events are the nodes at which facts were
lost. -/
def factsProblem : Dataflow Facts NodeId where
  entries := [root]
  seed := fun _ => ∅
  successors := p.successors
  transfer := p.factsFlow
  meet := Facts.meet

end Program

abbrev FactsSolution := Solution Facts NodeId

end Typestate
