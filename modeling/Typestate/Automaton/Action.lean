import Typestate.Automaton.State
import Typestate.Location
import Typestate.Text.Datum
import Typestate.Text.Template

/-!
# Actions

An outcome of a rule may be an action: a program that looks at one match in one state,
enters states and raises errors. Each run starts with empty effects. An action that fails
keeps what it did until then in its effects, for its caller to drop.
-/

namespace Typestate

/-- The expressions bound to the declarations of a pattern. -/
abbrev Bindings := SortedMap String Expr

inductive ActionError
  | unknownBinding (name : String)
  | failed (message : String)
  deriving DecidableEq, Repr

def ActionError.message : ActionError → String
  | unknownBinding name => s!"unknown binding '{name}'"
  | failed message => message

/-- What an action looks at: a match, its expression in one state, and the place. -/
structure ActionView where
  bindings : Bindings
  expr : Expr
  state : State
  location : Option Location
  deriving DecidableEq

structure Raised where
  message : String
  cwe : Option String
  deriving DecidableEq, Repr

structure Effects where
  scratch : SortedMap String Datum
  states : List State
  raised : List Raised

def Effects.none : Effects := ⟨∅, [], []⟩

abbrev ActionM := ReaderT ActionView (ExceptT ActionError (StateM Effects))

namespace ActionM

def enter (s : State) : ActionM Unit :=
  modify fun e => { e with states := e.states ++ [s] }

def raise (message : String) (cwe : Option String) : ActionM Unit :=
  modify fun e => { e with raised := e.raised ++ [⟨message, cwe⟩] }

def store (name : String) (d : Datum) : ActionM Unit :=
  modify fun e => { e with scratch := e.scratch.insert name d }

end ActionM

def Bindings.text (b : Bindings) (name : String) : Except ActionError String :=
  match b.get? name with
  | some e => .ok e.render
  | none => .error (.unknownBinding name)

def ActionM.format (template : String) : ActionM String := do
  let view ← read
  MonadExcept.ofExcept (Text.fillText view.bindings.text template)

/-- An action of a checker. -/
structure Action where
  name : String
  /-- Whether the action may enter states other than those it declares. -/
  isDynamic : Bool
  declared : List String
  body : ActionM Unit

/-- How a run of an action ends, and what it has done. -/
def Action.run (a : Action) (view : ActionView) : Except ActionError Unit × Effects :=
  ((a.body.run view).run).run .none

end Typestate
