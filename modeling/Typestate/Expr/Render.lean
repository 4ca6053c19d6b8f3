import Typestate.Expr
import Typestate.Text.Quoted

/-!
# The text of expressions

A member of a dereferenced pointer is written with an arrow, every other member with a dot.
-/

namespace Typestate.Expr

def render : Expr → String
  | var v => v.name
  | ssa v n => s!"{v.name}_{n}"
  | lit n => toString n
  | text s => Text.quoted s
  | addrOf e => "&" ++ e.render
  | deref e => "*" ++ e.render
  | field (deref p) f _ => p.render ++ "->" ++ f
  | field b f _ => b.render ++ "." ++ f
  | index b i _ => b.render ++ "[" ++ i.render ++ "]"

end Typestate.Expr
