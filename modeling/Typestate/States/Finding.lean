import Typestate.Match
import Typestate.States

/-!
# Findings

While states flow along edges, actions of the checker raise errors and fail. The same edge is
evaluated many times, so an error is kept once for each node, expression, state and message,
and a failure once. Errors are reported in the order of their places.
-/

namespace Typestate

structure Finding where
  /-- The node whose out-edge triggered the rule. -/
  node : NodeId
  function : Option FunctionId
  cls : EquivClass
  expr : Expr
  state : State
  message : String
  cwe : Option String
  found : Match
  location : Option Location
  /-- The place of the rule in the checker. -/
  rule : Option Location
  deriving DecidableEq

namespace Finding

def key (f : Finding) : NodeId × Expr × State × String := (f.node, f.expr, f.state, f.message)

/-- Findings compare by place, message, node, expression and state. -/
def order : Finding → Finding → Ordering :=
  compareLex (compareOn location) (compareLex (compareOn message)
    (compareLex (compareOn node) (compareLex (compareOn expr) (compareOn state))))

instance : Std.TransCmp order :=
  inferInstanceAs (Std.TransCmp (compareLex (compareOn location) (compareLex (compareOn message)
    (compareLex (compareOn node) (compareLex (compareOn expr) (compareOn state))))))

def sort (l : List Finding) : List Finding := l.mergeSort fun f g => (order f g).isLE

end Finding

structure Failure where
  action : String
  message : String
  location : Option Location
  deriving DecidableEq, Repr

/-- What an evaluation of an edge leaves behind. -/
inductive Incident
  | finding (f : Finding)
  | failure (f : Failure)
  deriving DecidableEq

structure Log where
  findings : List Finding
  failures : List Failure
  deriving DecidableEq

namespace Log

def empty : Log := ⟨[], []⟩

/-- Keeps an incident, unless the like of it has been kept. -/
def add (log : Log) : Incident → Log
  | .finding f =>
    if f.key ∈ log.findings.map Finding.key then log
    else { log with findings := log.findings ++ [f] }
  | .failure f =>
    if f ∈ log.failures then log else { log with failures := log.failures ++ [f] }

def addAll (log : Log) (l : List Incident) : Log := l.foldl add log

def ofList (l : List Incident) : Log := empty.addAll l

end Log

end Typestate
