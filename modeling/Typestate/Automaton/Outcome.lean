import Typestate.Automaton.Action

/-!
# Outcomes

What a rule does to a matched expression: it moves it to a state, runs an action, or does
either on one branch of a condition only.
-/

namespace Typestate

inductive Outcome
  | goto (s : State)
  | guarded (value : Bool) (outcome : Outcome)
  | action (a : Action)

namespace Outcome

def error (template : String) (cwe : Option String) : Outcome :=
  .action
    { name := "error"
      isDynamic := false
      declared := []
      body := do ActionM.raise (← ActionM.format template) cwe }

/-- What is left of an outcome on an edge with the given value of its condition. -/
def onBranch (branch : Option Bool) : Outcome → Option Outcome
  | guarded value o => if branch = some value then o.onBranch branch else none
  | o => some o

/-- The names of the states that an outcome is known to enter. -/
def entered : Outcome → List String
  | goto s => [s.name]
  | guarded _ o => o.entered
  | action a => a.declared

/-- Whether an outcome may enter other states than those known. -/
def isDynamic : Outcome → Bool
  | goto _ => false
  | guarded _ o => o.isDynamic
  | action a => a.isDynamic

def render : Outcome → String
  | goto s => s.render
  | guarded value o => s!"{value}={o.render}"
  | action a => "\x7b " ++ a.name ++ " \x7d"

end Outcome

end Typestate
