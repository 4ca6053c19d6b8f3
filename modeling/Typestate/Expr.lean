import Typestate.Sorted.Order

/-!
# Program expressions

Variables, their storage and coarse types, and the expressions over them. An expression is
a plain value; its list of sub-expressions, in pre-order, is the view through which the
library asks what an expression mentions and whose variables it reads.
-/

namespace Typestate

abbrev FunctionId := Nat

inductive Storage
  | localVar | param | global | temporary
  deriving DecidableEq, Repr

/-- As much of a type as declarations ask for. -/
inductive TypeKind
  | pointer | integer | other
  deriving DecidableEq, Repr

/-- A variable. `owner` is the function it belongs to; a global belongs to none. -/
structure Variable where
  name : String
  owner : Option FunctionId
  storage : Storage
  ty : TypeKind
  deriving DecidableEq, Repr

inductive Expr
  | var (v : Variable)
  | ssa (v : Variable) (version : Nat)
  /-- An integer literal; the null pointer is the literal 0. -/
  | lit (n : Int)
  | text (s : String)
  | addrOf (e : Expr)
  | deref (e : Expr)
  | field (base : Expr) (name : String) (ty : TypeKind)
  | index (base position : Expr) (ty : TypeKind)
  deriving DecidableEq, Repr

namespace Expr

def ty : Expr → TypeKind
  | var v | ssa v _ => v.ty
  | lit _ => .integer
  | text _ | addrOf _ => .pointer
  | deref _ => .other
  | field _ _ t | index _ _ t => t

def literal? : Expr → Option Int
  | lit n => some n
  | _ => none

theorem literal?_eq_some {e : Expr} {n : Int} : e.literal? = some n ↔ e = lit n := by
  cases e <;> simp [literal?]

def isLiteral (e : Expr) : Bool := e.literal?.isSome

def asVariable : Expr → Option Variable
  | var v | ssa v _ => some v
  | _ => none

def children : Expr → List Expr
  | var _ | ssa _ _ | lit _ | text _ => []
  | addrOf e | deref e | field e _ _ => [e]
  | index b i _ => [b, i]

def subexprs : Expr → List Expr
  | addrOf e => addrOf e :: e.subexprs
  | deref e => deref e :: e.subexprs
  | field e f t => field e f t :: e.subexprs
  | index b i t => index b i t :: (b.subexprs ++ i.subexprs)
  | e => [e]

/-- Whether `x` occurs in the expression, possibly as the whole of it. -/
def mentions (e x : Expr) : Bool := x ∈ e.subexprs

def vars (e : Expr) : List Variable := e.subexprs.filterMap asVariable

def isGlobal (e : Expr) : Bool := e.vars.all (·.owner.isNone)

def isScopedTo (e : Expr) (f : FunctionId) : Bool := e.vars.any (·.owner == some f)

/-- The function of the first variable that belongs to one. -/
def owner (e : Expr) : Option FunctionId := e.vars.findSome? (·.owner)

/-- The expression with every maximal sub-expression that `rename` maps replaced. -/
def substitute (rename : Expr → Option Expr) : Expr → Expr
  | addrOf e => (rename (addrOf e)).getD (addrOf (e.substitute rename))
  | deref e => (rename (deref e)).getD (deref (e.substitute rename))
  | field e f t => (rename (field e f t)).getD (field (e.substitute rename) f t)
  | index b i t =>
    (rename (index b i t)).getD (index (b.substitute rename) (i.substitute rename) t)
  | e => (rename e).getD e

def rank : Expr → Nat
  | var _ => 0 | ssa _ _ => 1 | lit _ => 2 | text _ => 3
  | addrOf _ => 4 | deref _ => 5 | field _ _ _ => 6 | index _ _ _ => 7

end Expr

end Typestate
