/-!
# Machine words

Program literals are signed 64-bit words. They are integers here, and an operation on them
is exact or, where its result is no word, has none.
-/

namespace Typestate.Word

def min : Int := -9223372036854775808

def max : Int := 9223372036854775807

def fits (n : Int) : Bool := min ≤ n && n ≤ max

def check (n : Int) : Option Int := if fits n then some n else none

theorem check_eq_some_iff {n m : Int} : check n = some m ↔ n = m ∧ min ≤ n ∧ n ≤ max := by
  unfold check
  split <;> rename_i h <;> simp only [fits, Bool.and_eq_true, decide_eq_true_eq] at h
  · simp only [Option.some.injEq]
    exact ⟨fun e => ⟨e, h⟩, fun e => e.1⟩
  · simp only [reduceCtorEq, false_iff]
    exact fun e => h e.2

end Typestate.Word
