import Typestate.Match.Leaks

/-!
# Possible matches

Which rules may fire along an edge inside a function depends on the edge's statement and its
leaks only, not on states. The outcomes of a rule are those left on the edge's branch; a rule
with none of them left does nothing there.
-/

namespace Typestate

structure PossibleMatch where
  expr : Expr
  states : List String
  pattern : Pattern
  outcomes : List Outcome
  found : Match
  location : Option Location
  /-- Whether the statement writes the expression; then only its state changes. -/
  assigns : Bool

namespace PossibleMatch

variable (m : PossibleMatch)

def appliesTo (s : State) : Bool := listAccepts m.states s.name

def isLeakRule : Bool :=
  match m.pattern with
  | .shape (.leaked _) => true
  | _ => false

end PossibleMatch

namespace Automaton

variable (a : Automaton)

/-- The matches of a pattern with a statement, if there is one, and with leaks. -/
def allMatches (p : Pattern) (stmt : Option Statement) (leaked : List Expr) : List Match :=
  ((stmt.map (a.stmtMatches p)).getD []) ++ a.leakMatches p leaked

def possibleOfRule (branch : Option Bool) (stmt : Option Statement) (leaked : List Expr)
    (c : StateClause) (r : Rule) : List PossibleMatch :=
  let outcomes := r.outcomes.filterMap (·.onBranch branch)
  if outcomes.isEmpty then []
  else
    let assigned := stmt.bind fun s => s.defined?.map Expr.simplify
    (a.allMatches r.pattern stmt leaked).filterMap fun found =>
      (found.bindings.get? a.stateful.name).map fun e =>
        { expr := e
          states := c.states
          pattern := r.pattern
          outcomes
          found
          location := r.location.or c.location
          assigns := assigned = some e }

/-- The possible matches along an edge of a program, given the leaks along it. -/
def possibleAt (p : Program) (leaked : List Expr) (e : EdgeId) : List PossibleMatch :=
  match p.edges[e]? with
  | some ⟨source, _, .flow guard⟩ =>
    a.clauses.flatMap fun c => c.rules.flatMap fun r =>
      a.possibleOfRule (EdgeKind.flow guard).branch? (p.stmtAt source) leaked c r
  | _ => []

end Automaton

end Typestate
