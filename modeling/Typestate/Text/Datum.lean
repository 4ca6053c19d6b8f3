/-!
# Data

What an action may leave in its scratch space: nothing, a truth value, a number, a text, or
lists and records of these. A datum is written without blanks, texts between double quotes.
-/

namespace Typestate

/-- A datum. -/
inductive Datum
  | null
  | bool (b : Bool)
  | int (n : Int)
  | text (s : String)
  | list (items : List Datum)
  /-- The fields stand in the order of their names. -/
  | record (fields : List (String × Datum))

namespace Datum

/-- How a character is written in a text. Quotes, backslashes and controls are escaped. -/
def escapeChar (c : Char) : List Char :=
  if c = '"' then ['\\', '"']
  else if c = '\\' then ['\\', '\\']
  else if c = '\x08' then ['\\', 'b']
  else if c = '\t' then ['\\', 't']
  else if c = '\n' then ['\\', 'n']
  else if c = '\x0c' then ['\\', 'f']
  else if c = '\r' then ['\\', 'r']
  else if c.toNat < 0x20 then
    ['\\', 'u', '0', '0', Nat.digitChar (c.toNat / 16), Nat.digitChar (c.toNat % 16)]
  else [c]

def renderText (s : String) : String :=
  String.ofList ('"' :: s.toList.flatMap escapeChar ++ ['"'])

mutual

def render : Datum → String
  | null => "null"
  | bool b => toString b
  | int n => toString n
  | text s => renderText s
  | list items => "[" ++ ",".intercalate (renderItems items) ++ "]"
  | record fields => "\x7b" ++ ",".intercalate (renderFields fields) ++ "\x7d"

def renderItems : List Datum → List String
  | [] => []
  | d :: ds => d.render :: renderItems ds

def renderFields : List (String × Datum) → List String
  | [] => []
  | (name, d) :: fs => (renderText name ++ ":" ++ d.render) :: renderFields fs

end

end Datum

end Typestate
