/-!
# Quoted text

A string literal is shown between double quotes. Quotes and backslashes get a backslash,
the usual control characters have a letter, and every other character that leaves no mark
of its own on the page is shown by its code point in hexadecimal.
-/

namespace Typestate.Text

/-- The code points that leave no mark of their own: controls, spaces other than the plain
one, format characters, marks that combine with their neighbour, and private code points. -/
def unmarked : List (Nat × Nat) :=
  [(0x0, 0x1f), (0x7f, 0xa0), (0xad, 0xad), (0x300, 0x36f), (0x600, 0x605), (0x61c, 0x61c),
    (0x1680, 0x1680), (0x180b, 0x180f), (0x1ab0, 0x1ace), (0x1dc0, 0x1dff), (0x2000, 0x200f),
    (0x2028, 0x202f), (0x205f, 0x206f), (0x20d0, 0x20f0), (0x3000, 0x3000), (0xe000, 0xf8ff),
    (0xfe00, 0xfe0f), (0xfe20, 0xfe2f), (0xfeff, 0xfeff), (0xfff0, 0xfffb), (0xe0000, 0x10ffff)]

def isUnmarked (c : Char) : Bool :=
  unmarked.any fun r => r.1 ≤ c.toNat && c.toNat ≤ r.2

/-- How a character is written inside double quotes. -/
def escapeChar (c : Char) : List Char :=
  if c = '\x00' then ['\\', '0']
  else if c = '\t' then ['\\', 't']
  else if c = '\r' then ['\\', 'r']
  else if c = '\n' then ['\\', 'n']
  else if c = '"' then ['\\', '"']
  else if c = '\\' then ['\\', '\\']
  else if isUnmarked c then
    ['\\', 'u', '\x7b'] ++ Nat.toDigits 16 c.toNat ++ ['\x7d']
  else [c]

def quoted (s : String) : String :=
  String.ofList ('"' :: s.toList.flatMap escapeChar ++ ['"'])

end Typestate.Text
