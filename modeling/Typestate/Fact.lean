import Typestate.Expr.Canonical
import Typestate.Expr.Order
import Typestate.Expr.Render
import Typestate.Operator

/-!
# Facts

A fact relates two expressions by a comparison. Facts are kept in a normal form, which is
part of their type: both sides are canonical, and a literal stands on the right unless both
sides are literals.
-/

namespace Typestate

/-- A comparison of two expressions, in normal form. -/
structure Fact where
  left : Expr
  op : Comparison
  right : Expr
  left_canonical : left.IsCanonical
  right_canonical : right.IsCanonical
  literal_right : left.isLiteral = true → right.isLiteral = true

namespace Fact

theorem ext {f g : Fact} (hl : f.left = g.left) (ho : f.op = g.op) (hr : f.right = g.right) :
    f = g := by
  cases f; cases g; cases hl; cases ho; cases hr; rfl

instance : DecidableEq Fact := fun f g =>
  if h : f.left = g.left ∧ f.op = g.op ∧ f.right = g.right then
    isTrue (ext h.1 h.2.1 h.2.2)
  else isFalse fun e => h (e ▸ ⟨rfl, rfl, rfl⟩)

/-- The normal form of a comparison of two expressions. -/
def of (a : Expr) (op : Comparison) (b : Expr) : Fact :=
  if h : a.simplify.isLiteral = true ∧ b.simplify.isLiteral = false then
    { left := b.simplify, op := op.flip, right := a.simplify
      left_canonical := b.isCanonical_simplify
      right_canonical := a.isCanonical_simplify
      literal_right := fun _ => h.1 }
  else
    { left := a.simplify, op := op, right := b.simplify
      left_canonical := a.isCanonical_simplify
      right_canonical := b.isCanonical_simplify
      literal_right := fun ha => by
        cases hb : b.simplify.isLiteral
        · exact absurd ⟨ha, hb⟩ h
        · rfl }

theorem of_self (f : Fact) : of f.left f.op f.right = f := by
  have hl := Expr.simplify_of_isCanonical f.left_canonical
  have hr := Expr.simplify_of_isCanonical f.right_canonical
  unfold of
  split
  · rename_i h
    rw [hl, hr] at h
    rw [f.literal_right h.1] at h
    cases h.2
  · exact ext hl rfl hr

def mentions (f : Fact) (e : Expr) : Bool := f.left.mentions e || f.right.mentions e

/-- Whether a fact says nothing: an expression equals, or is at most or at least, itself. -/
def isTautology (f : Fact) : Bool :=
  decide (f.left = f.right) && (f.op = .eq || f.op = .le || f.op = .ge)

def otherSide (f : Fact) (e : Expr) : Option Expr :=
  if f.left = e then some f.right
  else if f.right = e then some f.left
  else none

def vars (f : Fact) : List Variable := f.left.vars ++ f.right.vars

def render (f : Fact) : String := s!"{f.left.render} {f.op.symbol} {f.right.render}"

def order : Fact → Fact → Ordering :=
  compareLex (compareOn left) (compareLex (compareOn op) (compareOn right))

instance : Ord Fact := ⟨order⟩

instance : Std.TransOrd Fact :=
  inferInstanceAs (Std.TransCmp (compareLex (compareOn left)
    (compareLex (compareOn op) (compareOn right))))

instance : Std.LawfulEqOrd Fact := lawfulEqCmp_of_eq_iff order fun f g => by
  simp only [order, compareLex, compareOn, Ordering.then_eq_eq, Std.compare_eq_iff_eq]
  exact ⟨fun h => ext h.1 h.2.1 h.2.2, fun h => h ▸ ⟨rfl, rfl, rfl⟩⟩

end Fact

end Typestate
