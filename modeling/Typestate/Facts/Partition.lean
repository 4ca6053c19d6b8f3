import Typestate.Expr.Order
import Typestate.Sorted.Set

/-!
# Classes of equal expressions

Equalities between expressions are closed to classes: a pair puts its two expressions, and
every class that holds one of them, into one class. The classes are a set of sets, so they
are listed in the order of their first members, whatever the order of the pairs.
-/

namespace Typestate

abbrev EquivClass := SortedSet Expr

/-- Disjoint classes of equal expressions. -/
structure Partition where
  classes : SortedSet EquivClass
  deriving DecidableEq

namespace Partition

def empty : Partition := ⟨∅⟩

def touches (a b : Expr) (c : EquivClass) : Bool := a ∈ c || b ∈ c

def link (p : Partition) (a b : Expr) : Partition :=
  let touched := p.classes.filter (touches a b)
  let apart := p.classes.filter fun c => !touches a b c
  let joined := touched.toList.foldl SortedSet.union (SortedSet.ofList [a, b])
  ⟨apart.insert joined⟩

def ofPairs (pairs : List (Expr × Expr)) : Partition :=
  pairs.foldl (fun p ab => p.link ab.1 ab.2) empty

variable (p : Partition)

def classOf (e : Expr) : Option EquivClass := p.classes.toList.find? fun c => e ∈ c

def sameClass (a b : Expr) : Bool :=
  match p.classOf a, p.classOf b with
  | some c, some d => c = d
  | _, _ => a = b

def literals (c : EquivClass) : List Int := c.toList.filterMap Expr.literal?

/-- The value of an expression that is a literal or whose class has exactly one. -/
def constantOf (e : Expr) : Option Int :=
  match e.literal? with
  | some n => some n
  | none =>
    match (p.classOf e).map literals with
    | some [n] => some n
    | _ => none

end Partition

end Typestate
