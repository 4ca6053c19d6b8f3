import Typestate.Sorted.Order

/-!
# Source locations

A place in a source file. Locations order by file, line and column, which puts findings
in the order of the source.
-/

namespace Typestate

/-- A line and column of a source file. -/
structure Location where
  file : String
  line : Nat
  column : Nat
  deriving DecidableEq, Repr

namespace Location

def lineStart (file : String) (line : Nat) : Location := ⟨file, line, 0⟩

def render (l : Location) : String := s!"{l.file}:{l.line}:{l.column}"

def order : Location → Location → Ordering :=
  compareLex (compareOn file) (compareLex (compareOn line) (compareOn column))

instance : Ord Location := ⟨order⟩

instance : Std.TransOrd Location :=
  inferInstanceAs (Std.TransCmp (compareLex (compareOn file)
    (compareLex (compareOn line) (compareOn column))))

instance : Std.LawfulEqOrd Location := lawfulEqCmp_of_eq_iff order <| by
  rintro ⟨f, l, c⟩ ⟨f', l', c'⟩
  simp [order, compareLex, compareOn]

end Location

end Typestate
