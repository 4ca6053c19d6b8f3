import Typestate.Automaton.State
import Typestate.Expr.Canonical
import Typestate.Facts.Partition
import Typestate.Fault
import Typestate.Program

/-!
# States at a node

What a checker knows at a node: for each class of equal expressions, the states that the
class may be in. Values of two paths meet in the union of the sets, class by class. A class
that one side lacks is in the default state there if it is in scope at the node; a class of
another function that travels through a callee stays as it is.
-/

namespace Typestate

namespace EquivClass

/-- The function that a class belongs to; a class of globals belongs to none. -/
def owner (c : EquivClass) : Option FunctionId := c.toList.findSome? Expr.owner

/-- Whether a class is one of globals or belongs to a function. -/
def isInScope (c : EquivClass) (f : Option FunctionId) : Bool :=
  owner c = none || owner c = f

def render (c : EquivClass) : String :=
  "\x7b" ++ ", ".intercalate (c.toList.map Expr.render) ++ "\x7d"

end EquivClass

abbrev ClassStates := SortedMap EquivClass States

structure NodeStates where
  node : NodeId
  map : ClassStates
  deriving DecidableEq

namespace NodeStates

variable (v : NodeStates)

/-- The first class that holds an expression, with its states. -/
def entryOf (e : Expr) : Option (EquivClass × States) :=
  v.map.entries.find? fun entry => e.simplify ∈ entry.1

def classOf (e : Expr) : Option EquivClass := (v.entryOf e).map (·.1)

def statesOf (e : Expr) : Option States := (v.entryOf e).map (·.2)

def restrict (c : EquivClass) (s : State) : NodeStates :=
  { v with map := v.map.insert c (.singleton s) }

/-- Whether no class may be in more than one state. -/
def isUnambiguous : Bool := v.map.values.all fun s => s.size ≤ 1

def widen (defaults : States) (scope : Option FunctionId) (c : EquivClass) (s : States) :
    States :=
  if EquivClass.isInScope c scope then s.union defaults else s

def meet (defaults : States) (scope : Option FunctionId) (w : NodeStates) : NodeStates :=
  { v with map := v.map.merge SortedSet.union (widen defaults scope) w.map }

/-- Whether each state of a class is a state of the class on the other side, where a class
that the other side lacks is in the default state if it is in scope. -/
def isSubsetOf (defaults : States) (scope : Option FunctionId) (w : NodeStates) : Bool :=
  v.map.entries.all fun (c, s) =>
    match w.map.get? c with
    | some t => s.isSubset t
    | none => if EquivClass.isInScope c scope then s.isSubset defaults else s.isEmpty

/-- Whether the two sides share a state of each class that both have. -/
def isCompatibleWith (w : NodeStates) : Bool :=
  v.map.entries.all fun (c, s) =>
    match w.map.get? c with
    | some t => !s.isDisjoint t
    | none => true

def renderStates (s : States) : String :=
  "\x7b" ++ ", ".intercalate (s.toList.map State.render) ++ "\x7d"

def render : String :=
  let entries := v.map.entries.map fun (c, s) => s!"{EquivClass.render c}: {renderStates s}"
  "\x7b" ++ ", ".intercalate entries ++ "\x7d"

/-- How a value is written after the name of its node. -/
def renderAtNode : String := s!"{nodeName v.node}: {v.render}"

end NodeStates

end Typestate
