import Typestate.Expr.Order
import Typestate.Expr.Render
import Typestate.Sorted.Map
import Typestate.Text.Quoted

/-!
# States of an automaton

A state is a name with attributes, such as the size of an allocation. A clause lists the
states in which its rules apply by name, and may put a star before or after a part of one.
-/

namespace Typestate

inductive Attribute
  | int (n : Int)
  | text (s : String)
  | expr (e : Expr)
  deriving DecidableEq, Repr

namespace Attribute

def render : Attribute → String
  | int n => toString n
  | text s => Text.quoted s
  | expr e => e.render

def rank : Attribute → Nat
  | int _ => 0 | text _ => 1 | expr _ => 2

def intPart : Attribute → Int
  | int n => n
  | _ => 0

def textPart : Attribute → String
  | text s => s
  | _ => ""

def exprPart : Attribute → Expr
  | expr e => e
  | _ => .lit 0

def order : Attribute → Attribute → Ordering :=
  compareLex (compareOn rank)
    (compareLex (compareOn intPart) (compareLex (compareOn textPart) (compareOn exprPart)))

instance : Ord Attribute := ⟨order⟩

instance : Std.TransOrd Attribute :=
  inferInstanceAs (Std.TransCmp (compareLex (compareOn rank)
    (compareLex (compareOn intPart) (compareLex (compareOn textPart) (compareOn exprPart)))))

instance : Std.LawfulEqOrd Attribute := lawfulEqCmp_of_eq_iff order fun a b => by
  simp only [order, compareLex, compareOn, Ordering.then_eq_eq, Std.compare_eq_iff_eq]
  cases a <;> cases b <;> simp [rank, intPart, textPart, exprPart]

end Attribute

structure State where
  name : String
  attrs : SortedMap String Attribute
  deriving DecidableEq

namespace State

def named (name : String) : State := ⟨name, ∅⟩

/-- How a state is written: its name, and its attributes if it has any. -/
def render (s : State) : String :=
  if s.attrs.isEmpty then s.name
  else
    let attrs := ", ".intercalate (s.attrs.entries.map fun (k, v) => s!"{k}={v.render}")
    s!"{s.name}({attrs})"

def order : State → State → Ordering := compareLex (compareOn name) (compareOn attrs)

instance : Ord State := ⟨order⟩

instance : Std.TransOrd State :=
  inferInstanceAs (Std.TransCmp (compareLex (compareOn name) (compareOn attrs)))

instance : Std.LawfulEqOrd State := lawfulEqCmp_of_eq_iff order <| by
  rintro ⟨n, a⟩ ⟨n', a'⟩
  simp [order, compareLex, compareOn]

/-- Whether an entry of a state list accepts a name: a star alone accepts every name, a
leading star the names that end in the rest, a trailing star those that begin with it. -/
def entryAccepts (entry name : String) : Bool :=
  match entry.toList with
  | ['*'] => true
  | '*' :: rest => rest.isSuffixOf name.toList
  | cs => if cs.getLast? = some '*' then cs.dropLast.isPrefixOf name.toList else entry = name

def isWildcard (entry : String) : Bool :=
  entry.toList.head? = some '*' || entry.toList.getLast? = some '*'

end State

abbrev States := SortedSet State

end Typestate
