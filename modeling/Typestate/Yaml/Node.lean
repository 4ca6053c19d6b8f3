import Typestate.Yaml.BlockScalar

/-!
# Nodes of a document

A document is a scalar or a mapping. Mappings are written as blocks of lines with the same
indentation, or in braces. A key ends with a colon on the line on which it starts, not too far
away, unless a question mark in front of it says that it is a key. Keys are scalars, and lists,
anchors, tags and directives are not read.
-/

namespace Typestate
namespace Yaml

inductive Node
  | scalar (isPlain : Bool) (text : String)
  | mapping (entries : List (String × Node))
  deriving Repr

def Node.absent : Node := .scalar true ""

def Node.text? : Node → Option String
  | .scalar _ text => some text
  | _ => none

/-- Whether a key of a block may start, and what follows. -/
structure Position where
  fresh : Bool
  rest : List Mark

/-- Whether a byte order mark starts a line, where it stands for nothing. -/
def isOrderMark (m : Mark) : Bool := m.char = '\ufeff' && m.column = 0

def skipBlock : Bool → Bool → List Mark → Position
  | fresh, _, [] => ⟨fresh, []⟩
  | fresh, comment, m :: r =>
    if isBreak m.char then skipBlock true false r
    else if comment || m.char = '#' then skipBlock fresh true r
    else if m.char = ' ' || (m.char = '\t' && !fresh) || isOrderMark m then
      skipBlock fresh false r
    else ⟨fresh, m :: r⟩

def skipFlow : Bool → List Mark → List Mark
  | _, [] => []
  | comment, m :: r =>
    if isBreak m.char then skipFlow false r
    else if comment || m.char = '#' then skipFlow true r
    else if isBlank m.char || isOrderMark m then skipFlow false r
    else m :: r

/-- The number of characters before a colon that a key without a question mark may have. -/
def keyLimit : Nat := 1024

/-- Whether a colon that ends the key starting at `start` stands at `ms`. -/
def endsKey (flow : Bool) (start ms : List Mark) : Bool :=
  isColon flow ms &&
    match start.head?, ms.head? with
    | some a, some b => a.line = b.line && b.column ≤ a.column + keyLimit
    | _, _ => false

def expect? (c : Char) : List Mark → Option (List Mark)
  | m :: r => if m.char = c then some r else none
  | [] => none

/-- What follows a character that introduces a node in a block, if it comes next. -/
def indicator? (c : Char) (ms : List Mark) : Option (List Mark) :=
  (expect? c ms).filter endsToken

def endsEntry (ms : List Mark) : Bool :=
  (expect? ',' ms).isSome || (expect? '\x7d' ms).isSome

/-- Reads a key in braces, and gives whether a value follows with the rest from its colon on. -/
def flowKey? (least : Nat) (ms : List Mark) : Option (String × Bool × List Mark) :=
  match expect? '?' ms with
  | some r =>
    let r := skipFlow false r
    if isColon true r || endsEntry r then some ("", isColon true r, r)
    else do
      let t ← scalar true least r
      let r := skipFlow false t.rest
      return (t.text, isColon true r, r)
  | none => do
    let t ← scalar true least ms
    let r := skipFlow false t.rest
    return (t.text, endsKey true ms r, r)

mutual
def flowNode (fuel least : Nat) (ms : List Mark) : Option (Node × List Mark) :=
  match fuel, expect? '\x7b' ms with
  | 0, _ => none
  | fuel + 1, some r => flowEntries fuel least [] (skipFlow false r)
  | _ + 1, none => do
    let t ← scalar true least ms
    return (.scalar t.isPlain t.text, t.rest)

/-- Reads the entries of a mapping up to its closing brace. -/
def flowEntries (fuel least : Nat) (acc : List (String × Node)) (ms : List Mark) :
    Option (Node × List Mark) :=
  match fuel, expect? '\x7d' ms with
  | 0, _ => none
  | _ + 1, some r => some (.mapping acc.reverse, r)
  | fuel + 1, none => do
    let (key, valued, r) ← flowKey? least ms
    let value := skipFlow false r.tail
    let (v, r) ← if !valued then some (Node.absent, r)
      else if endsEntry value then some (Node.absent, value)
      else flowNode fuel least value
    let r := skipFlow false r
    match expect? ',' r with
    | some r => flowEntries fuel least ((key, v) :: acc) (skipFlow false r)
    | none => return (.mapping ((key, v) :: acc).reverse, ← expect? '\x7d' r)
end

def isLeftOf (column : Nat) (ms : List Mark) : Bool :=
  (boundary? ms).isSome || ms.head?.all (·.column < column)

/-- Whether no node stands below a key that starts at a column. The node starts to the right of
its key; only the first character of a block scalar, which is never a key, may stand below it. -/
def isAbsent (column : Nat) (ms : List Mark) : Bool :=
  isLeftOf column ms ||
    isLeftOf (column + 1) ms && (expect? '|' ms).isNone && (expect? '>' ms).isNone

def blockToken (least : Nat) (ms : List Mark) : Option Token :=
  match expect? '|' ms, expect? '>' ms with
  | some r, _ => blockScalar false least r
  | none, some r => blockScalar true least r
  | none, none => scalar false least ms

mutual
def blockNode (fuel least : Nat) (p : Position) : Option (Node × Position) :=
  match fuel with
  | 0 => none
  | fuel + 1 => do
    let column ← p.rest.head?.map Mark.column
    if (expect? '\x7b' p.rest).isSome then
      let (v, r) ← flowNode (p.rest.length + 1) least p.rest
      return (v, skipBlock false false r)
    else if p.fresh && (indicator? '?' p.rest).isSome then blockEntry fuel column [] p
    else
      let t ← blockToken least p.rest
      let q := skipBlock t.fresh false t.rest
      if p.fresh && endsKey false p.rest q.rest then
        blockValue fuel column [] t.text (skipBlock false false q.rest.tail)
      else return (.scalar t.isPlain t.text, q)
termination_by structural fuel

/-- Reads an entry of a block whose keys start at a column, and the entries after it. -/
def blockEntry (fuel column : Nat) (acc : List (String × Node)) (p : Position) :
    Option (Node × Position) :=
  match fuel with
  | 0 => none
  | fuel + 1 =>
    match indicator? '?' p.rest with
    | some r => do
      let k := skipBlock true false r
      let (key, q) ← if isAbsent column k.rest then some (Node.absent, k)
        else blockNode fuel (column + 1) k
      let key ← key.text?
      match indicator? ':' q.rest with
      | some r =>
        if q.fresh && q.rest.head?.all (·.column = column) then
          blockValue fuel column acc key (skipBlock true false r)
        else none
      | none => blockRest fuel column ((key, .absent) :: acc) q
    | none => do
      let t ← scalar false (column + 1) p.rest
      let q := skipBlock t.fresh false t.rest
      if endsKey false p.rest q.rest then
        blockValue fuel column acc t.text (skipBlock false false q.rest.tail)
      else none

def blockValue (fuel column : Nat) (acc : List (String × Node)) (key : String) (p : Position) :
    Option (Node × Position) :=
  match fuel with
  | 0 => none
  | fuel + 1 => do
    let (v, q) ← if isAbsent column p.rest then some (Node.absent, p)
      else blockNode fuel (column + 1) p
    blockRest fuel column ((key, v) :: acc) q

def blockRest (fuel column : Nat) (acc : List (String × Node)) (p : Position) :
    Option (Node × Position) :=
  match fuel with
  | 0 => none
  | fuel + 1 =>
    if isLeftOf column p.rest then some (.mapping acc.reverse, p)
    else if p.fresh && p.rest.head?.all (·.column = column) then blockEntry fuel column acc p
    else none
end

/-- Whether nothing but ends of documents follows. -/
def atEnd (fuel : Nat) (ms : List Mark) : Bool :=
  match fuel, ms, boundary? ms with
  | _, [], _ => true
  | fuel + 1, _, some ('.', r) => atEnd fuel (skipBlock false false r).rest
  | _, _, _ => false

/-- Reads a text that is one document with one node. -/
def read? (text : String) : Option Node :=
  if text.toList.all isAllowed then do
    let ms := marksFrom 0 0 (unifyBreaks text.toList)
    let p := skipBlock true false ms
    let p ← match boundary? p.rest with
      | none => some p
      | some ('-', r) => some (skipBlock false false r)
      | some _ => none
    let (v, p) ← if isLeftOf 0 p.rest then none else blockNode (4 * ms.length + 4) 0 p
    if atEnd (ms.length + 1) p.rest then some v else none
  else none

end Yaml
end Typestate
