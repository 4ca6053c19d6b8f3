import Typestate.Automaton.Vocabulary

/-!
# Automata

A machine that can be run: its names are resolved, every rule binds the declaration that
carries the state, and no clause waits for a state that nothing enters.
-/

namespace Typestate

structure Automaton extends Vocabulary where
  name : String
  clauses : List StateClause
  /-- The declaration whose expressions have states. -/
  stateful : Decl

namespace Automaton

variable (a : Automaton)

/-- The state of an expression about which nothing has happened. -/
def default : State := .named s!"{a.stateful.name}.start"

/-- The rules of all clauses, each with its place or else that of its clause. -/
def rules : List (Rule × Option Location) :=
  a.clauses.flatMap fun c => c.rules.map fun r => (r, r.location.or c.location)

def outcomes : List Outcome := a.rules.flatMap (·.1.outcomes)

def isDynamic : Bool := a.outcomes.any Outcome.isDynamic

def reachable : SortedSet String :=
  .ofList (a.default.name :: a.outcomes.flatMap Outcome.entered)

/-- Whether every way to match a pattern binds the declaration that carries the state. -/
def bindsState (p : Pattern) : Bool := (a.shapes p).all (·.mentions a.stateful.name)

def checkRule (r : Rule × Option Location) : Except Fault Unit := do
  a.checkPattern r.2 [] r.1.pattern
  unless a.bindsState r.1.pattern do
    throw (.malformedPattern (.unbound r.1.pattern.render a.stateful.name) r.2)

/-- The first state that a clause waits for and no outcome enters. -/
def dead? : Option (String × Option Location) :=
  (a.clauses.flatMap fun c => c.states.map (·, c.location)).find? fun s =>
    !State.isWildcard s.1 && s.1 ∉ a.reachable

/-- Finds fault with the state lists, unless an action may enter any state. -/
def checkStates : Except Fault Unit :=
  if a.isDynamic then .ok ()
  else
    match a.dead? with
    | some (state, place) => .error (.unreachableState state place)
    | none => .ok ()

end Automaton

namespace Machine

def automaton (m : Machine) (stateful : Decl) : Automaton :=
  { Vocabulary.ofMachine m with name := m.name, clauses := m.stateClauses, stateful }

/-- Checks a machine. A named pattern is checked even if no rule refers to it. -/
def compile (m : Machine) : Except Fault Automaton :=
  match m.decls.find? (·.isStateful) with
  | none => .error (.noStatefulDecl m.name)
  | some stateful => do
    let a := m.automaton stateful
    m.namedPatterns.forM fun p => a.checkPattern p.location [p.name] p.pattern
    a.rules.forM a.checkRule
    a.checkStates
    return a

end Machine

end Typestate
