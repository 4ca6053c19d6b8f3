import Typestate.Facts.Partition
import Typestate.Sorted.Map

/-!
# Classes by linked numbers

The classes of a list of equalities, computed in one pass over the list and one over its
expressions. Each expression gets a number when it is first met, and each number has a parent
that is not greater; the numbers that lead to one root are one class. To equate two
expressions makes the lesser of their roots the parent of the other. Every way to a root is
halved as it is taken, so that later ways are shorter.

The second pass takes the expressions in ascending order and begins a class with each that
leads to a new root. So neither the order of the equalities nor the numbers show in the
classes.
-/

namespace Typestate

/-- Numbers with their parents. What is its own parent is a root, and so is any number that
the array does not reach. -/
structure Forest where
  parents : Array Nat
  parent_le : ∀ i : Nat, parents[i]?.getD i ≤ i

namespace Forest

def empty : Forest := ⟨#[], fun i => by simp⟩

variable (f : Forest)

def size : Nat := f.parents.size

def parent (i : Nat) : Nat := f.parents[i]?.getD i

theorem parent_lt {f : Forest} {i : Nat} (h : f.parent i ≠ i) : f.parent i < i :=
  Nat.lt_of_le_of_ne (f.parent_le i) h

theorem grandparent_lt {f : Forest} {i : Nat} (h : f.parent i ≠ i) :
    f.parent (f.parent i) < i :=
  Nat.lt_of_le_of_lt (f.parent_le _) (parent_lt h)

def grow : Forest where
  parents := f.parents.push f.size
  parent_le i := by
    rw [Array.getElem?_push]
    split
    · rename_i h
      exact Nat.le_of_eq h.symm
    · exact f.parent_le i

def redirect (i p : Nat) (h : p < i) : Forest where
  parents := f.parents.setIfInBounds i p
  parent_le j := by
    rw [Array.getElem?_setIfInBounds]
    split
    · rename_i hij
      subst hij
      split
      · exact Nat.le_of_lt h
      · exact Nat.le_refl _
    · exact f.parent_le j

/-- The root that a number leads to, and the forest with the way there halved. -/
def find (f : Forest) (i : Nat) : Forest × Nat :=
  if h : f.parent i = i then (f, i)
  else (f.redirect i (f.parent (f.parent i)) (grandparent_lt h)).find (f.parent (f.parent i))
termination_by i
decreasing_by exact grandparent_lt h

/-- Makes two numbers lead to one root. -/
def union (i j : Nat) : Forest :=
  let (f, a) := f.find i
  let (f, b) := f.find j
  if h : a = b then f else f.redirect (max a b) (min a b) (by omega)

end Forest

structure Numbering where
  index : SortedMap Expr Nat
  forest : Forest

namespace Numbering

/-- The number of an expression, which may be a new one. -/
def number (g : Numbering) (e : Expr) : Numbering × Nat :=
  match g.index.get? e with
  | some i => (g, i)
  | none => (⟨g.index.insert e g.forest.size, g.forest.grow⟩, g.forest.size)

def link (g : Numbering) (a b : Expr) : Numbering :=
  let (g, i) := g.number a
  let (g, j) := g.number b
  { g with forest := g.forest.union i j }

def ofPairs (pairs : List (Expr × Expr)) : Numbering :=
  pairs.foldl (fun g ab => g.link ab.1 ab.2) ⟨∅, .empty⟩

end Numbering

/-- Classes in the order in which they were begun, with the place of the class of each root
and of each expression. -/
structure ClassTable where
  forest : Forest
  places : SortedMap Nat Nat
  classes : Array EquivClass
  placeOf : SortedMap Expr Nat

namespace ClassTable

def add (t : ClassTable) (e : Expr) (i : Nat) : ClassTable :=
  let (forest, root) := t.forest.find i
  match t.places.get? root with
  | some k =>
    { t with
      forest
      classes := t.classes.modify k (·.insert e)
      placeOf := t.placeOf.insert e k }
  | none =>
    { forest
      places := t.places.insert root t.classes.size
      classes := t.classes.push (.singleton e)
      placeOf := t.placeOf.insert e t.classes.size }

/-- The classes of a list of equalities. -/
def ofPairs (pairs : List (Expr × Expr)) : ClassTable :=
  let g := Numbering.ofPairs pairs
  g.index.entries.foldl (fun t x => t.add x.1 x.2) ⟨g.forest, ∅, #[], ∅⟩

variable (t : ClassTable)

def classOf (e : Expr) : Option EquivClass := (t.placeOf.get? e).bind (t.classes[·]?)

def sameClass (a b : Expr) : Bool :=
  match t.placeOf.get? a, t.placeOf.get? b with
  | some i, some j => i = j
  | _, _ => a = b

end ClassTable

end Typestate
