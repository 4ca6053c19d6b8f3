/-!
# Scalars of a document

A document is read as a list of characters that know their line and column. A scalar is plain,
in single quotes or in double quotes. Blanks inside a scalar are kept, and line breaks are
folded: one break becomes a space, and of several the first is dropped.
-/

namespace Typestate
namespace Yaml

structure Mark where
  char : Char
  line : Nat
  column : Nat
  deriving DecidableEq, Repr

def isBlank (c : Char) : Bool := c = ' ' || c = '\t'

/-- The end of a line, after the usual ends have become line feeds. -/
def isBreak (c : Char) : Bool := c = '\n' || c = '\u2028' || c = '\u2029'

def marksFrom : Nat → Nat → List Char → List Mark
  | _, _, [] => []
  | l, c, x :: r => ⟨x, l, c⟩ :: if isBreak x then marksFrom (l + 1) 0 r else marksFrom l (c + 1) r

def isAllowed (c : Char) : Bool :=
  let n := c.toNat
  n = 9 || n = 10 || n = 13 || (32 ≤ n && n ≤ 126) || n = 133 ||
    (160 ≤ n && n ≤ 65533) || 65536 ≤ n

def unifyBreaks : List Char → List Char
  | '\r' :: '\n' :: r => '\n' :: unifyBreaks r
  | c :: r => (if c = '\r' || c = '\u0085' then '\n' else c) :: unifyBreaks r
  | [] => []

def endsToken : List Mark → Bool
  | [] => true
  | m :: _ => isBlank m.char || isBreak m.char

/-- The characters that bound a document, if these start with such a line. -/
def boundary? : List Mark → Option (Char × List Mark)
  | a :: b :: c :: r =>
    if a.column = 0 && a.char = b.char && b.char = c.char && (a.char = '-' || a.char = '.') &&
      endsToken r then some (a.char, r) else none
  | _ => none

/-- Whether a mapping's colon stands here. In braces nothing has to follow it. -/
def isColon (flow : Bool) : List Mark → Bool
  | m :: r => m.char = ':' && (flow || endsToken r)
  | [] => false

def fold : List Char → List Char
  | ['\n'] => [' ']
  | '\n' :: more => more
  | breaks => breaks

/-- What a run of blanks and breaks inside a scalar stands for, the last one first. -/
def gap (run : List Char) : List Char :=
  let breaks := run.reverse.filter isBreak
  if breaks.isEmpty then run.reverse else fold breaks

structure Token where
  text : String
  /-- Whether the scalar has no quotes. -/
  isPlain : Bool
  fresh : Bool
  rest : List Mark

def startsPlain (flow : Bool) : List Mark → Bool
  | [] => false
  | m :: r =>
    if m.char = '-' then !endsToken r
    else if m.char = '?' || m.char = ':' then !flow && !endsToken r
    else !endsToken [m] && !",[]\x7b\x7d#&*!|>\x27\x22%@\x60".toList.contains m.char

/-- Reads a plain scalar. Outside of braces it ends before a line that starts left of a least
column; no line may have a tab there. -/
def plain (flow : Bool) (least : Nat) : List Char → List Char → List Mark → Option Token
  | acc, run, [] => some ⟨String.ofList acc.reverse, true, run.any isBreak, []⟩
  | acc, run, m :: r =>
    let stop := some ⟨String.ofList acc.reverse, true, run.any isBreak, m :: r⟩
    if isBlank m.char then
      if m.char = '\t' && run.any isBreak && m.column < least then none
      else plain flow least acc (m.char :: run) r
    else if isBreak m.char then plain flow least acc (m.char :: run) r
    else if !run.isEmpty && ((!flow && m.column < least) || (boundary? (m :: r)).isSome ||
      m.char = '#') then stop
    else if flow && m.char = ':' && (r.head?.any fun x =>
      ",?[]\x7b\x7d".toList.contains x.char) then none
    else if isColon false (m :: r) || (flow && ",[]\x7b\x7d".toList.contains m.char) then stop
    else plain flow least (m.char :: (gap run).reverse ++ acc) [] r

/-- Reads the rest of a scalar in single quotes, in which a quote is written twice. -/
def single : List Char → List Char → List Mark → Option Token
  | _, _, [] => none
  | acc, run, m :: r =>
    let acc' := (gap run).reverse ++ acc
    if isBlank m.char || isBreak m.char then single acc (m.char :: run) r
    else if (boundary? (m :: r)).isSome then none
    else if m.char = '\x27' then
      match r with
      | ⟨'\x27', _, _⟩ :: r => single ('\x27' :: acc') [] r
      | _ => some ⟨String.ofList acc'.reverse, false, false, r⟩
    else single (m.char :: acc') [] r

/-- What follows a backslash: a character, or a count of hexadecimal digits. -/
def escape? : Char → Option (Char ⊕ Nat)
  | '0' => some (.inl '\x00') | 'a' => some (.inl '\x07') | 'b' => some (.inl '\x08')
  | 't' => some (.inl '\t') | '\t' => some (.inl '\t') | 'n' => some (.inl '\n')
  | 'v' => some (.inl '\x0b') | 'f' => some (.inl '\x0c') | 'r' => some (.inl '\r')
  | 'e' => some (.inl '\x1b') | ' ' => some (.inl ' ') | '\x22' => some (.inl '\x22')
  | '/' => some (.inl '/') | '\x5c' => some (.inl '\x5c') | 'N' => some (.inl '\u0085')
  | '_' => some (.inl '\u00a0') | 'L' => some (.inl '\u2028') | 'P' => some (.inl '\u2029')
  | 'x' => some (.inr 2) | 'u' => some (.inr 4) | 'U' => some (.inr 8)
  | _ => none

def digit? (base : Nat) (c : Char) : Option Nat :=
  let n := c.toNat
  let v := if c.isDigit then n - 48 else if 'a' ≤ c ∧ c ≤ 'f' then n - 87
    else if 'A' ≤ c ∧ c ≤ 'F' then n - 55 else base
  if v < base then some v else none

/-- Where the reader of a double-quoted scalar stands. -/
inductive Quoting
  | text
  /-- After an escaped end of a line, which stands for nothing. -/
  | cut
  | backslash
  /-- Inside of an escaped code. -/
  | code (left value : Nat)

def double : Quoting → List Char → List Char → List Mark → Option Token
  | _, _, _, [] => none
  | .backslash, acc, _, m :: r =>
    if isBreak m.char then double .cut acc [] r
    else match escape? m.char with
      | some (.inl c) => double .text (c :: acc) [] r
      | some (.inr n) => double (.code n 0) acc [] r
      | none => none
  | .code left value, acc, _, m :: r => do
    let v := value * 16 + (← digit? 16 m.char)
    if left ≤ 1 then
      if Nat.isValidChar v then double .text (Char.ofNat v :: acc) [] r else none
    else double (.code (left - 1) v) acc [] r
  | q, acc, run, m :: r =>
    let acc' := (match q with
      | .cut => run.filter isBreak
      | _ => (gap run).reverse) ++ acc
    if isBlank m.char || isBreak m.char then double q acc (m.char :: run) r
    else if (boundary? (m :: r)).isSome then none
    else if m.char = '\x22' then some ⟨String.ofList acc'.reverse, false, false, r⟩
    else if m.char = '\x5c' then double .backslash acc' [] r
    else double .text (m.char :: acc') [] r

def scalar (flow : Bool) (least : Nat) (ms : List Mark) : Option Token :=
  match ms with
  | ⟨'\x27', _, _⟩ :: r => single [] [] r
  | ⟨'\x22', _, _⟩ :: r => double .text [] [] r
  | _ => if (boundary? ms).isSome || !startsPlain flow ms then none else plain flow least [] [] ms

end Yaml
end Typestate
