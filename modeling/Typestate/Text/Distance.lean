/-!
# Edit distance

The distance of two texts is the least number of characters to insert, delete or replace to
turn one into the other. It is computed in rows, one for each character of the source, with an
entry for each prefix of the target. Only two rows are kept, and they change places when one
is complete. The distance picks the closest of several names for a suggestion.
-/

namespace Typestate.Text

/-- The distances of a text to each prefix of a target of length `m`, and the row that is
written for the text with one more character. -/
structure Rows (m : Nat) where
  complete : Vector Nat (m + 1)
  next : Vector Nat (m + 1)

namespace Rows

variable {m : Nat}

def start (m : Nat) : Rows m := ⟨.range (m + 1), .replicate (m + 1) 0⟩

/-- Writes the entry after the character `d` of the target at `j`. It comes from deleting the
character `c` of the source, inserting `d`, or replacing the one by the other. -/
def write (r : Rows m) (c d : Char) (j : Nat) (h : j < m) : Rows m :=
  let deleted := r.complete[j + 1] + 1
  let inserted := r.next[j] + 1
  let replaced := r.complete[j] + if c = d then 0 else 1
  { r with next := r.next.set (j + 1) (min (min deleted inserted) replaced) }

/-- Writes the entries of the first `j` characters of the target after the first entry, for the
character `c` of the source at `i`. -/
def fill (target : List Char) (r : Rows target.length) (c : Char) (i : Nat) :
    (j : Nat) → j ≤ target.length → Rows target.length
  | 0, _ => { r with next := r.next.set 0 (i + 1) }
  | j + 1, h => (fill target r c i j (Nat.le_of_succ_le h)).write c target[j] j h

def swap (r : Rows m) : Rows m := ⟨r.next, r.complete⟩

/-- The rows after the rest of a source whose first `i` characters have been taken. -/
def advance (target : List Char) :
    (source : List Char) → (i : Nat) → Rows target.length → Rows target.length
  | [], _, r => r
  | c :: source, i, r =>
    advance target source (i + 1) (fill target r c i target.length (Nat.le_refl _)).swap

end Rows

/-- The least number of one-character edits that turn the first text into the second. -/
def distance (source target : List Char) : Nat :=
  (Rows.advance target source 0 (.start target.length)).complete[target.length]

/-- The first candidate at the least distance from the wanted name. -/
def closest? (wanted : String) (candidates : List String) : Option String :=
  candidates.foldl (fun best c =>
    match best with
    | none => some c
    | some b =>
      if distance wanted.toList c.toList < distance wanted.toList b.toList then some c
      else some b) none

def suggestion (wanted : String) (candidates : List String) : String :=
  match closest? wanted candidates with
  | some c => s!"Did you mean '{c}'?"
  | none => "No candidates available"

end Typestate.Text
