import Typestate.Location

/-!
# Reports

What the checker says of an error that can happen: a headline, and notes that lead to it. A
list of reports is written with a line that names the function whenever the function changes.
-/

namespace Typestate

structure Note where
  location : Location
  message : String
  deriving DecidableEq, Repr

def Note.render (n : Note) : String := s!"{n.location.render}: note: {n.message}\n"

structure Report where
  machine : String
  function : Option String
  location : Option Location
  message : String
  /-- The class of weakness, such as `CWE-415`. -/
  cwe : Option String
  notes : List Note
  deriving DecidableEq, Repr

namespace Report

def headline (r : Report) : String :=
  let place := match r.location with
    | some l => s!"{l.render}: "
    | none => ""
  let cwe := match r.cwe with
    | some c => s!" [{c}]"
    | none => ""
  s!"{place}error: {r.message}{cwe}"

def render (r : Report) : String :=
  r.headline ++ "\n" ++ String.join (r.notes.map Note.render)

/-- The line that names the function of a report, if the report has a function and a place. -/
def header (r : Report) : String :=
  match r.function, r.location with
  | some f, some l => l.file ++ ": In function '" ++ f ++ "':\n"
  | _, _ => ""

/-- The lines of a list of reports, after one with the given function. -/
def renderAfter : (current : Option String) → List Report → String
  | _, [] => ""
  | current, r :: rs =>
    (if r.function = current then "" else r.header) ++ r.render ++ renderAfter r.function rs

def renderAll (l : List Report) : String := renderAfter none l

end Report

end Typestate
