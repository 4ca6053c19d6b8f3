import Typestate.Location
import Typestate.Settings.Error

/-!
# Faults

Why a run of the checker stops: a machine that cannot be loaded, a pass that does not
settle, a program graph with unmatched calls, or a bad configuration. What the checker
finds in a program is no fault; findings are its answer.
-/

namespace Typestate

inductive GraphDefect
  | callWithoutStatement (node : Nat)
  /-- A call node whose edges into and out of the callee are not one of each. -/
  | unmatchedCall (node starts returns : Nat)
  /-- The root of the graph holds no states. -/
  | stateless
  deriving DecidableEq, Repr

def nodeName (node : Nat) : String := s!"NodeIndex({node})"

def GraphDefect.message : GraphDefect → String
  | callWithoutStatement n => s!"call node {nodeName n} has no call statement"
  | unmatchedCall n starts returns =>
    s!"call node {nodeName n} has {starts} call-to-start and {returns} " ++
      "exit-to-return-site edges"
  | stateless => "entry node has no states"

inductive PatternDefect
  | emptyDisjunction
  | selfReference (name : String)
  | literalComparison (pattern : String)
  | assignmentToLiteral (pattern : String)
  | callWithoutCallee
  /-- A rule that can match without binding the declaration that carries the state. -/
  | unbound (pattern decl : String)
  deriving DecidableEq, Repr

def PatternDefect.message : PatternDefect → String
  | emptyDisjunction => "empty disjunction"
  | selfReference name => s!"named pattern '{name}' refers to itself"
  | literalComparison p => s!"comparison '{p}' has no declaration operand"
  | assignmentToLiteral p => s!"assignment '{p}' to a literal"
  | callWithoutCallee => "call pattern without callee"
  | unbound p decl => s!"pattern '{p}' never binds stateful declaration '{decl}'"

inductive Fault
  | unreachableState (state : String) (location : Option Location)
  | unknownDecl (name suggestion : String) (location : Option Location)
  | unknownNamedPattern (name : String) (location : Option Location)
  | malformedPattern (defect : PatternDefect) (location : Option Location)
  | noStatefulDecl (machine : String)
  | notConverged (pass : String) (limit : Nat)
  | invalidGraph (defect : GraphDefect)
  | settings (error : SettingsError)
  deriving DecidableEq, Repr

namespace Fault

def location : Fault → Option Location
  | unreachableState _ l | unknownDecl _ _ l | unknownNamedPattern _ l
  | malformedPattern _ l => l
  | _ => none

/-- The text of a fault, after its place if it has one. -/
def message (f : Fault) : String :=
  let place := match f.location with
    | some l => s!"{l.render}: "
    | none => ""
  match f with
  | unreachableState state _ => s!"{place}unreachable state '{state}'"
  | unknownDecl name suggestion _ => s!"{place}unknown declaration '{name}'. {suggestion}"
  | unknownNamedPattern name _ => s!"{place}unknown named pattern '{name}'"
  | malformedPattern defect _ => s!"{place}malformed pattern: {defect.message}"
  | noStatefulDecl machine => s!"state machine '{machine}' has no stateful declaration"
  | notConverged pass limit =>
    s!"fixed point for {pass} did not converge within {limit} iterations"
  | invalidGraph defect => s!"invalid supergraph: {defect.message}"
  | settings error => s!"Configuration error: {error.message}"

end Fault

end Typestate
