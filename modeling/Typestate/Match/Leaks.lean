import Typestate.Facts.Flow
import Typestate.Match

/-!
# Leaks

On an edge into the exit of a function its locals go out of scope. A local that the facts tie
neither to the returned value nor to storage that outlives the function leaks there.
-/

namespace Typestate

/-- The locals of a function that a declaration accepts, temporaries apart. -/
def Function.acceptedLocals (f : Function) (d : Decl) : List Expr :=
  ((f.locals.filter (·.storage = .localVar)).map Expr.var).filter d.accepts

namespace Program

variable (p : Program)

/-- What a function returns from a node: the value of the return statement there, or else the
value that the function is known to return. -/
def returnedAt (f : Function) (n : NodeId) : Option Expr :=
  match p.stmtAt n with
  | some (.ret value) => value.map Expr.simplify
  | _ => f.returned

def leaksAt (d : Decl) (facts : NodeId → Option Facts) (e : EdgeId) : List Expr :=
  match p.edges[e]? with
  | none => []
  | some edge =>
    match p.nodes[edge.target]?, p.functionOf edge.target, facts edge.source with
    | some ⟨_, .exit, _, _⟩, some f, some s =>
      let kept := ((p.returnedAt f edge.source).map s.varAliases).getD ∅
      (f.acceptedLocals d).filter fun x => x ∉ kept && !s.isReferencedOutside x f.id
    | _, _, _ => []

end Program

end Typestate
