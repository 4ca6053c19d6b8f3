import Typestate.Expr.Canonical
import Typestate.Fault
import Typestate.Program

/-!
# Building program graphs

A graph is drawn up step by step, functions first, and is finished by adding the edges out
of the root. A finished graph has matched calls: each call node has one edge into its
callee and one edge back.
-/

namespace Typestate

/-- An unfinished program graph. `entryPoints` lists the functions marked as entered from
outside, each once. -/
structure Draft extends Program where
  entryPoints : List FunctionId
  deriving DecidableEq, Repr

namespace Draft

def empty : Draft where
  nodes := #[⟨none, .root, none, none⟩]
  edges := #[]
  functions := #[]
  globals := []
  entryPoints := []

variable (d : Draft)

def addNode (f : FunctionId) (kind : NodeKind) (stmt : Option Statement)
    (location : Option Location) : Draft :=
  { d with nodes := d.nodes.push ⟨some f, kind, stmt, location⟩ }

def addEdge (source target : NodeId) (kind : EdgeKind) : Draft :=
  { d with edges := d.edges.push ⟨source, target, kind⟩ }

def modifyFunction (f : FunctionId) (change : Function → Function) : Draft :=
  { d with functions := d.functions.modify f change }

def addFunction (name : String) (location : Option Location) : Draft :=
  let f := d.functions.size
  let entry := d.nodes.size
  let g : Function := ⟨f, name, [], [], entry, entry + 1, none, location, none⟩
  let d := (d.addNode f .entry none none).addNode f .exit none none
  { d with functions := d.functions.push g }

/-- Adds a statement. A statement that returns a value says what its function returns. -/
def addStatement (f : FunctionId) (stmt : Statement) (location : Option Location) : Draft :=
  let d := match stmt with
    | .ret (some value) => d.modifyFunction f fun g => { g with returned := some value.simplify }
    | _ => d
  d.addNode f .statement (some stmt) location

/-- Adds the two nodes and three edges of a call of a known function. -/
def addCall (caller : FunctionId) (stmt : Statement) (callee : Function)
    (location : Option Location) : Draft :=
  let call := d.nodes.size
  let site := call + 1
  (d.addNode caller .call (some stmt) location).addNode caller .returnSite none location
    |>.addEdge call callee.entry .enter
    |>.addEdge call site .callToReturn
    |>.addEdge callee.exit site (.leave call)

def markEntryPoint (f : FunctionId) : Draft :=
  if f ∈ d.entryPoints then d else { d with entryPoints := d.entryPoints ++ [f] }

/-- The functions entered from outside: those marked, or all if none is. -/
def roots : List FunctionId :=
  if d.entryPoints.isEmpty then List.range d.functions.size else d.entryPoints

def rootEdges : List Edge :=
  d.roots.filterMap fun f => d.functions[f]?.map fun g => ⟨Program.root, g.entry, .root⟩

def finish : Program := { d.toProgram with edges := d.edges ++ d.rootEdges.toArray }

end Draft

namespace Program

variable (p : Program)

def callDefect? (n : NodeId) (node : Node) : Option GraphDefect :=
  if node.kind ≠ .call then none
  else if (p.callAt n).isNone then some (.callWithoutStatement n)
  else
    let starts := ((p.outEdges n).filter fun e => p.edges[e]?.any (·.kind == .enter)).length
    let returns := (p.edgesWhere (·.kind == .leave n)).length
    if starts = 1 ∧ returns = 1 then none else some (.unmatchedCall n starts returns)

def defect? : Option GraphDefect :=
  p.nodes.toList.zipIdx.findSome? fun (node, n) => p.callDefect? n node

end Program

def Draft.build (d : Draft) : Except Fault Program :=
  match d.finish.defect? with
  | some defect => .error (.invalidGraph defect)
  | none => .ok d.finish

inductive Step
  | addGlobal (name : String) (ty : TypeKind)
  | addFunction (name : String) (location : Option Location)
  | addParam (f : FunctionId) (name : String) (ty : TypeKind)
  | addLocal (f : FunctionId) (name : String) (ty : TypeKind)
  | addTemporary (f : FunctionId) (name : String) (ty : TypeKind)
  | setEnd (f : FunctionId) (location : Location)
  | addStatement (f : FunctionId) (stmt : Statement) (location : Option Location)
  | addNode (f : FunctionId) (kind : NodeKind) (stmt : Option Statement)
      (location : Option Location)
  | addCall (caller : FunctionId) (stmt : Statement) (callee : FunctionId)
      (location : Option Location)
  | addEdge (source target : NodeId)
  | addBranch (cond onTrue onFalse : NodeId)
  | addSwitch (source target : NodeId) (cases : List CaseLabel)
  | markEntryPoint (f : FunctionId)
  deriving DecidableEq, Repr

namespace Step

def functions : Step → List FunctionId
  | addParam f _ _ | addLocal f _ _ | addTemporary f _ _ | setEnd f _ | addStatement f _ _
  | addNode f _ _ _ | markEntryPoint f => [f]
  | addCall caller _ callee _ => [caller, callee]
  | _ => []

def nodes : Step → List NodeId
  | addEdge a b | addSwitch a b _ => [a, b]
  | addBranch a b c => [a, b, c]
  | _ => []

/-- The variable that a step declares, as the expression that names it. A temporary is named
by its first version. -/
def declared? : Step → Option Expr
  | addGlobal name ty => some (.var ⟨name, none, .global, ty⟩)
  | addParam f name ty => some (.var ⟨name, some f, .param, ty⟩)
  | addLocal f name ty => some (.var ⟨name, some f, .localVar, ty⟩)
  | addTemporary f name ty => some (.ssa ⟨name, some f, .temporary, ty⟩ 1)
  | _ => none

/-- The draft after a step whose functions and nodes are there. -/
def run (d : Draft) : Step → Draft
  | addGlobal name ty => { d with globals := d.globals ++ [⟨name, none, .global, ty⟩] }
  | addFunction name location => d.addFunction name location
  | addParam f name ty =>
    d.modifyFunction f fun g => { g with params := g.params ++ [⟨name, some f, .param, ty⟩] }
  | addLocal f name ty =>
    d.modifyFunction f fun g => { g with locals := g.locals ++ [⟨name, some f, .localVar, ty⟩] }
  | addTemporary f name ty =>
    d.modifyFunction f fun g => { g with locals := g.locals ++ [⟨name, some f, .temporary, ty⟩] }
  | setEnd f location => d.modifyFunction f fun g => { g with endLocation := some location }
  | addStatement f stmt location => d.addStatement f stmt location
  | addNode f kind stmt location => d.addNode f kind stmt location
  | addCall caller stmt callee location =>
    match d.functions[callee]? with
    | some g => d.addCall caller stmt g location
    | none => d
  | addEdge a b => d.addEdge a b (.flow .always)
  | addBranch a b c =>
    (d.addEdge a b (.flow (.branch true))).addEdge a c (.flow (.branch false))
  | addSwitch a b cases => d.addEdge a b (.flow (.labels cases))
  | markEntryPoint f => d.markEntryPoint f

/-- The draft after a step, unless the step refers to a function or a node that is not
there. -/
def perform? (s : Step) (d : Draft) : Option Draft :=
  if s.functions.all (· < d.functions.size) && s.nodes.all (· < d.nodes.size) then
    some (s.run d)
  else none

end Step

def Draft.ofSteps? (steps : List Step) : Option Draft :=
  steps.foldlM (fun d s => s.perform? d) Draft.empty

end Typestate
