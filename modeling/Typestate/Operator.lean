import Typestate.Sorted.Order
import Typestate.Word

/-!
# Operators

The comparisons of conditions and facts, and the arithmetic of assignments. `negate` and
`flip` say how a comparison reads on the false branch and with its operands swapped.
-/

namespace Typestate

inductive Comparison
  | eq | ne | lt | le | gt | ge
  deriving DecidableEq, Repr

namespace Comparison

/-- The comparison that holds exactly when this one does not. -/
def negate : Comparison → Comparison
  | eq => ne | ne => eq | lt => ge | ge => lt | le => gt | gt => le

/-- The comparison that holds with the operands swapped. -/
def flip : Comparison → Comparison
  | eq => eq | ne => ne | lt => gt | gt => lt | le => ge | ge => le

def Holds : Comparison → Int → Int → Prop
  | eq, a, b => a = b
  | ne, a, b => a ≠ b
  | lt, a, b => a < b
  | le, a, b => a ≤ b
  | gt, a, b => a > b
  | ge, a, b => a ≥ b

instance : (op : Comparison) → (a b : Int) → Decidable (op.Holds a b)
  | eq, a, b => inferInstanceAs (Decidable (a = b))
  | ne, a, b => inferInstanceAs (Decidable (a ≠ b))
  | lt, a, b => inferInstanceAs (Decidable (a < b))
  | le, a, b => inferInstanceAs (Decidable (a ≤ b))
  | gt, a, b => inferInstanceAs (Decidable (a > b))
  | ge, a, b => inferInstanceAs (Decidable (a ≥ b))

theorem holds_negate {op : Comparison} {a b : Int} : op.negate.Holds a b ↔ ¬ op.Holds a b := by
  cases op <;> simp only [negate, Holds] <;> omega

theorem holds_flip {op : Comparison} {a b : Int} : op.flip.Holds b a ↔ op.Holds a b := by
  cases op <;> simp only [flip, Holds] <;> omega

def symbol : Comparison → String
  | eq => "==" | ne => "!=" | lt => "<" | le => "<=" | gt => ">" | ge => ">="

def rank : Comparison → Nat
  | eq => 0 | ne => 1 | lt => 2 | le => 3 | gt => 4 | ge => 5

theorem rank_injective (a b : Comparison) (h : a.rank = b.rank) : a = b := by
  cases a <;> cases b <;> first | rfl | cases h

instance : Ord Comparison := ⟨compareOn rank⟩

instance : Std.TransOrd Comparison := inferInstanceAs (Std.TransCmp (compareOn rank))

instance : Std.LawfulEqOrd Comparison := lawfulEqCmp_compareOn rank_injective

end Comparison

inductive BinaryOp
  | add | sub | mul | div | rem | bitAnd | bitOr | bitXor | shiftLeft | shiftRight
  deriving DecidableEq, Repr

namespace BinaryOp

/-- The result on two literals of an operator that is linear in each operand, if it is a
word. -/
def applyLinear : BinaryOp → Int → Int → Option Int
  | add, a, b => Word.check (a + b)
  | sub, a, b => Word.check (a - b)
  | mul, a, b => Word.check (a * b)
  | _, _, _ => none

def isCommutative : BinaryOp → Bool
  | add | mul | bitAnd | bitOr | bitXor => true
  | _ => false

def symbol : BinaryOp → String
  | add => "+" | sub => "-" | mul => "*" | div => "/" | rem => "%"
  | bitAnd => "&" | bitOr => "|" | bitXor => "^" | shiftLeft => "<<" | shiftRight => ">>"

end BinaryOp

inductive UnaryOp
  | neg | not | cast
  deriving DecidableEq, Repr

end Typestate
