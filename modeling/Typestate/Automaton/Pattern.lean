import Typestate.Operator
import Typestate.Sorted.Map

/-!
# Patterns

A rule of a checker is guarded by a pattern over statements. A shape is a pattern without
parts: it looks for one kind of event and names its operands by declarations. A pattern
combines shapes by disjunction and by references to named patterns, and stands for the list
of shapes that this unfolds to.
-/

namespace Typestate

inductive Operand
  /-- Whatever the declaration of this name accepts. -/
  | decl (name : String)
  | int (n : Int)
  deriving DecidableEq, Repr

namespace Operand

def render : Operand → String
  | decl name => name
  | int n => toString n

def renderList (l : List Operand) : String := ", ".intercalate (l.map render)

def decl? : Operand → Option String
  | decl name => some name
  | int _ => none

end Operand

/-- One kind of event in a program. -/
inductive Shape
  | assignment (target value : Operand)
  | callResult (result : Operand) (callee : String)
  | callArgs (callee : String) (args : List Operand)
  | comparison (left : Operand) (op : Comparison) (right : Operand)
  | dereference (pointer : Operand)
  | lookup (array position : Operand)
  | usage (operand : Operand)
  /-- The operand goes out of scope with nothing left that refers to it. -/
  | leaked (operand : Operand)
  deriving DecidableEq, Repr

namespace Shape

def operands : Shape → List Operand
  | assignment a b | comparison a _ b | lookup a b => [a, b]
  | callResult a _ | dereference a | usage a | leaked a => [a]
  | callArgs _ args => args

def mentions (s : Shape) (decl : String) : Bool := s.operands.any (·.decl? = some decl)

def render : Shape → String
  | assignment a b => s!"{a.render} = {b.render}"
  | callResult a callee => s!"{a.render} = {callee}()"
  | callArgs callee args => s!"{callee}({Operand.renderList args})"
  | comparison a op b => s!"{a.render} {op.symbol} {b.render}"
  | dereference a => s!"*{a.render}"
  | lookup a i => s!"{a.render}[{i.render}]"
  | usage a => a.render
  | leaked a => s!"$leaked$ {a.render}"

end Shape

inductive Pattern
  | shape (s : Shape)
  | either (alternatives : List Pattern)
  | named (name : String)

namespace Pattern

def operands : Pattern → List Operand
  | shape s => s.operands
  | _ => []

mutual

def render : Pattern → String
  | shape s => s.render
  | either ps => " | ".intercalate (renderAll ps)
  | named name => s!"${name}$"

def renderAll : List Pattern → List String
  | [] => []
  | p :: ps => p.render :: renderAll ps

end

mutual

/-- The shapes of a pattern, given those of each name. -/
def flatten (resolve : String → List Shape) : Pattern → List Shape
  | shape s => [s]
  | either ps => flattenAll resolve ps
  | named name => resolve name

def flattenAll (resolve : String → List Shape) : List Pattern → List Shape
  | [] => []
  | p :: ps => p.flatten resolve ++ flattenAll resolve ps

end

abbrev Table := SortedMap String Pattern

/-- The shapes of a name, with references followed at most `depth` deep. -/
def shapesOfName (table : Table) : Nat → String → List Shape
  | 0, _ => []
  | depth + 1, name =>
    match table.get? name with
    | none => []
    | some p => p.flatten (shapesOfName table depth)

/-- The shapes that a pattern stands for. Where no named pattern refers to itself, a chain of
references is no longer than the table. -/
def shapes (table : Table) (p : Pattern) : List Shape :=
  p.flatten (shapesOfName table table.size)

end Pattern

end Typestate
