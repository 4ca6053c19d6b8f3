import Typestate.Yaml.Scalar

/-!
# Block scalars

A block scalar is a header and the indented lines after it. A literal scalar keeps its line
breaks; a folded one turns a single break between two lines into a space unless one of them is
indented further. The header may give the indentation, which is otherwise that of the first
line, and says what becomes of the breaks at the end.
-/

namespace Typestate
namespace Yaml

/-- What becomes of the line breaks at the end of a block scalar. -/
inductive Chomping
  | strip
  /-- The break of the last line stays. -/
  | clip
  | keep

def chomping? : List Mark → Option (Chomping × List Mark)
  | ⟨'-', _, _⟩ :: r => some (.strip, r)
  | ⟨'+', _, _⟩ :: r => some (.keep, r)
  | _ => none

def increment? : List Mark → Option (Nat × List Mark)
  | [] => some (0, [])
  | m :: r =>
    if m.char.isDigit then if m.char = '0' then none else some (m.char.toNat - 48, r)
    else some (0, m :: r)

/-- Reads the indicators of a header, which come in any order. -/
def indicators? (ms : List Mark) : Option (Chomping × Nat × List Mark) :=
  match chomping? ms with
  | some (chomp, r) => (increment? r).map fun (n, r) => (chomp, n, r)
  | none => (increment? ms).map fun (n, r) =>
    match chomping? r with
    | some (chomp, r) => (chomp, n, r)
    | none => (.clip, n, r)

def header? (ms : List Mark) : Option (Chomping × Nat × List Mark) := do
  let (chomp, increment, r) ← indicators? ms
  match r.dropWhile fun m => isBlank m.char with
  | [] => return (chomp, increment, [])
  | m :: r =>
    if m.char = '#' then
      return (chomp, increment, (r.dropWhile fun m => !isBreak m.char).drop 1)
    else if isBreak m.char then return (chomp, increment, r)
    else none

/-- Skips empty lines and the indentation of the line after them, and gives the breaks, the
last one first, and the widest column reached. An unknown indentation is zero. A tab may not
stand in the indentation. -/
def emptyLines (indent : Nat) : Nat → List Char → List Mark → Option (Nat × List Char × List Mark)
  | width, breaks, [] => some (width, breaks, [])
  | width, breaks, m :: r =>
    let inside := indent = 0 || m.column < indent
    if inside && m.char = ' ' then emptyLines indent (max width (m.column + 1)) breaks r
    else if inside && m.char = '\t' then none
    else if isBreak m.char then emptyLines indent width (m.char :: breaks) r
    else some (width, breaks, m :: r)

/-- The lines of a block scalar read so far. -/
structure BlockLines where
  text : List Char
  last : List Char
  more : List Char
  blank : Bool

namespace BlockLines

/-- The text that joins the lines to one that starts with a blank or not. -/
def joint (folded : Bool) (s : BlockLines) (blank : Bool) : List Char :=
  if folded && s.last = ['\n'] && !s.blank && !blank then
    if s.more.isEmpty then [' '] else s.more
  else s.last ++ s.more

def close (s : BlockLines) : Chomping → List Char
  | .strip => s.text
  | .clip => s.text ++ s.last
  | .keep => s.text ++ s.last ++ s.more

def read? (folded : Bool) (indent : Nat) :
    Nat → BlockLines → List Mark → Option (BlockLines × List Mark)
  | 0, s, ms => some (s, ms)
  | _, s, [] => some (s, [])
  | fuel + 1, s, m :: r =>
    if m.column = indent then do
      let blank := isBlank m.char
      let line := (m :: r).takeWhile fun m => !isBreak m.char
      let after := (m :: r).dropWhile fun m => !isBreak m.char
      let (_, breaks, rest) ← emptyLines indent 0 [] (after.drop 1)
      read? folded indent fuel
        { text := s.text ++ s.joint folded blank ++ line.map Mark.char
          last := (after.take 1).map Mark.char
          more := breaks.reverse
          blank } rest
    else some (s, m :: r)

end BlockLines

/-- Reads a block scalar after its first character. Its lines start at a least column. -/
def blockScalar (folded : Bool) (least : Nat) (ms : List Mark) : Option Token := do
  let (chomp, increment, r) ← header? ms
  let given := if increment = 0 then 0 else least - 1 + increment
  let (width, breaks, r) ← emptyLines given 0 [] r
  let indent := if increment = 0 then max width (max least 1) else given
  let (s, r) ← BlockLines.read? folded indent r.length ⟨[], [], breaks.reverse, false⟩ r
  return ⟨String.ofList (s.close chomp), false, true, r⟩

end Yaml
end Typestate
