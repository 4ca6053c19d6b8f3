import Typestate.Operator
import Typestate.Expr.Render

/-!
# Statements

The statement of a program node: which expression it writes, which it reads, and its text.
-/

namespace Typestate

inductive Rvalue
  | use (e : Expr)
  | binary (op : BinaryOp) (left right : Expr)
  | unary (op : UnaryOp) (e : Expr)
  deriving DecidableEq, Repr

/-- The expressions an assigned value is computed from. -/
def Rvalue.operands : Rvalue → List Expr
  | use e | unary _ e => [e]
  | binary _ a b => [a, b]

inductive Statement
  | assign (target : Expr) (value : Rvalue)
  | call (result : Option Expr) (callee : String) (args : List Expr)
  | cond (left : Expr) (op : Comparison) (right : Expr)
  /-- The labels of a switch are on the edges that leave it. -/
  | switch (index : Expr)
  /-- A merge of values has one node per incoming edge. -/
  | phi (target value : Expr)
  | ret (value : Option Expr)
  | nop
  deriving DecidableEq, Repr

namespace Statement

def defined? : Statement → Option Expr
  | assign target _ | phi target _ => some target
  | call result _ _ => result
  | _ => none

def reads : Statement → List Expr
  | assign _ value => value.operands
  | call _ _ args => args
  | cond a _ b => [a, b]
  | switch e => [e]
  | phi _ value => [value]
  | ret value => value.toList
  | nop => []

def exprs (s : Statement) : List Expr := s.defined?.toList ++ s.reads

def callee? : Statement → Option String
  | call _ callee _ => some callee
  | _ => none

def renderArgs (args : List Expr) : String := ", ".intercalate (args.map Expr.render)

def render : Statement → String
  | assign target (.use e) => s!"{target.render} = {e.render}"
  | assign target (.binary op a b) => s!"{target.render} = {a.render} {op.symbol} {b.render}"
  | assign target (.unary .neg e) => s!"{target.render} = -{e.render}"
  | assign target (.unary .not e) => s!"{target.render} = !{e.render}"
  | assign target (.unary .cast e) => s!"{target.render} = ({e.render})"
  | call (some result) callee args => s!"{result.render} = {callee}({renderArgs args})"
  | call none callee args => s!"{callee}({renderArgs args})"
  | cond a op b => s!"if ({a.render} {op.symbol} {b.render})"
  | switch e => s!"switch ({e.render})"
  | phi target value => s!"{target.render} = PHI<{value.render}>"
  | ret (some e) => s!"return {e.render}"
  | ret none => "return"
  | nop => "nop"

end Statement

end Typestate
