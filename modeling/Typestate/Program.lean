import Typestate.Location
import Typestate.Statement

/-!
# Program graphs

The control-flow graphs of all functions of a program in one graph. A root has an edge into
every function that can be entered from outside. A call of a known function is split into a
call node and a return site, joined by an edge into the callee, an edge out of the callee's
exit, and an edge past it. Nodes, edges and functions are named by their places.
-/

namespace Typestate

abbrev NodeId := Nat

abbrev EdgeId := Nat

inductive NodeKind
  | root | entry | exit | statement | call | returnSite
  deriving DecidableEq, Repr

def NodeKind.label : NodeKind → String
  | root => "FakeEntry" | entry => "Entry" | exit => "Exit"
  | statement => "Stmt" | call => "Call" | returnSite => "ReturnSite"

structure Node where
  function : Option FunctionId
  kind : NodeKind
  stmt : Option Statement
  location : Option Location
  deriving DecidableEq, Repr

/-- The values from `low` to `high`. -/
structure CaseLabel where
  low : Int
  high : Int
  deriving DecidableEq, Repr

/-- When an edge inside a function is taken. -/
inductive Guard
  | always
  | branch (value : Bool)
  /-- The switched value has one of the labels; the default edge has none. -/
  | labels (cases : List CaseLabel)
  deriving DecidableEq, Repr

/-- What an edge of a program graph does. -/
inductive EdgeKind
  | flow (guard : Guard)
  /-- From a call node past the callee to the return site. -/
  | callToReturn
  | enter
  /-- From the callee's exit to the return site of the call at a call node. -/
  | leave (callNode : NodeId)
  | root
  deriving DecidableEq, Repr

/-- Whether an edge leads from one function to another. -/
def EdgeKind.isInterprocedural : EdgeKind → Bool
  | enter | leave _ | root => true
  | flow _ | callToReturn => false

/-- The value of the condition on a conditional edge. -/
def EdgeKind.branch? : EdgeKind → Option Bool
  | flow (.branch value) => some value
  | _ => none

def EdgeKind.cases : EdgeKind → List CaseLabel
  | flow (.labels cases) => cases
  | _ => []

structure Edge where
  source : NodeId
  target : NodeId
  kind : EdgeKind
  deriving DecidableEq, Repr

structure Function where
  id : FunctionId
  name : String
  params : List Variable
  locals : List Variable
  entry : NodeId
  exit : NodeId
  /-- What the function returns, where a statement of it says so. -/
  returned : Option Expr
  location : Option Location
  endLocation : Option Location
  deriving DecidableEq, Repr

def Function.paramExprs (f : Function) : List Expr := f.params.map .var

structure Program where
  nodes : Array Node
  edges : Array Edge
  functions : Array Function
  globals : List Variable
  deriving DecidableEq, Repr

namespace Program

def root : NodeId := 0

variable (p : Program)

/-- The edges with a given end, in ascending order. -/
def edgesWhere (test : Edge → Bool) : List EdgeId :=
  (List.range p.edges.size).filter fun i => p.edges[i]?.any test

theorem mem_edgesWhere {p : Program} {test : Edge → Bool} {i : EdgeId} :
    i ∈ p.edgesWhere test ↔ ∃ e, p.edges[i]? = some e ∧ test e = true := by
  simp only [edgesWhere, List.mem_filter, List.mem_range]
  constructor
  · rintro ⟨hi, h⟩
    rw [Array.getElem?_eq_getElem hi] at h ⊢
    exact ⟨_, rfl, h⟩
  · rintro ⟨e, he, h⟩
    obtain ⟨hi, -⟩ := Array.getElem?_eq_some_iff.1 he
    exact ⟨hi, by rw [he]; exact h⟩

def outEdges (n : NodeId) : List EdgeId := p.edgesWhere (·.source == n)

def inEdges (n : NodeId) : List EdgeId := p.edgesWhere (·.target == n)

def functionIdOf (n : NodeId) : Option FunctionId := p.nodes[n]?.bind (·.function)

def functionOf (n : NodeId) : Option Function := (p.functionIdOf n).bind (p.functions[·]?)

def stmtAt (n : NodeId) : Option Statement := p.nodes[n]?.bind (·.stmt)

def functionNamed (name : String) : Option Function :=
  p.functions.toList.find? (·.name == name)

/-- The location of a node. The entry of a function stands at its start, its exit at its
end, unless they have locations of their own. -/
def locationOf (n : NodeId) : Option Location := do
  let node ← p.nodes[n]?
  match node.location with
  | some l => some l
  | none =>
    let f ← p.functionOf n
    match node.kind with
    | .entry => f.location
    | .exit => f.endLocation.or f.location
    | _ => none

def callAt (n : NodeId) : Option (Option Expr × List Expr) :=
  match p.stmtAt n with
  | some (.call result _ args) => some (result, args)
  | _ => none

def findCall (callee : String) : Option NodeId :=
  (List.range p.nodes.size).find? fun n => (p.stmtAt n).bind (·.callee?) == some callee

/-- The first parameter, local or global of a name that the named function sees. -/
def findVariable (function name : String) : Option Expr := do
  let f ← p.functionNamed function
  let v ← (f.params ++ f.locals ++ p.globals).find? (·.name == name)
  return .var v

def renderNode (n : NodeId) (node : Node) : String :=
  let owner := match p.functionOf n with
    | some f => f.name
    | none => "<root>"
  let line := s!"NodeIndex({n}) [{owner}] {node.kind.label}"
  match node.stmt with
  | some s => s!"{line}: {s.render}\n"
  | none => s!"{line}\n"

def render : String :=
  String.join (p.nodes.toList.zipIdx.map fun (node, n) => p.renderNode n node)

end Program

end Typestate
