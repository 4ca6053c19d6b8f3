import Typestate.Automaton.Outcome

/-!
# Scripts

Actions given as lists of commands. The commands run in order; the first that fails ends
the run.
-/

namespace Typestate

inductive Command
  | enter (s : State)
  | error (message : String) (cwe : Option String)
  | format (template : String)
  | fail (message : String)
  | store (name : String) (d : Datum)
  /-- Raises an error that lists the scratch space. -/
  | showScratch
  /-- Raises an error that lists what the action looks at. -/
  | showView

def renderScratch (scratch : SortedMap String Datum) : String :=
  "[" ++ ";".intercalate (scratch.entries.map fun (k, d) => s!"{k}:{d.render}") ++ "]"

def ActionView.render (v : ActionView) : String :=
  let place := match v.location with
    | some l => l.render
    | none => "?"
  let bound := ",".intercalate (v.bindings.entries.map fun (k, e) => s!"{k}={e.render}")
  s!"expr={v.expr.render} state={v.state.render} at={place} bindings={bound}"

def Command.perform : Command → ActionM Unit
  | enter s => .enter s
  | error message cwe => .raise message cwe
  | format template => do .raise (← .format template) none
  | fail message => throw (.failed message)
  | store name d => .store name d
  | showScratch => do
    let effects ← get
    .raise s!"ns={renderScratch effects.scratch}" none
  | showView => do
    let view ← read
    .raise view.render none

def Action.ofScript (name : String) (isDynamic : Bool) (declared : List String)
    (script : List Command) : Action :=
  ⟨name, isDynamic, declared, script.forM Command.perform⟩

end Typestate
