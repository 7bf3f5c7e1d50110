import BurstDma.Text.Numeral

/-!
# Quoted text

A path in a message stands in double quotes, and characters that would not be seen
as themselves are escaped: quotes and backslashes by a backslash, the usual controls
by a letter, and everything else that does not print by its code point.
-/

namespace BurstDma.Text

/-- Code points that do not print as themselves, as closed ranges: controls, format
characters, separators, surrogates and the private planes. -/
def unprintedRanges : List (Nat × Nat) :=
  [(0x00, 0x1f), (0x7f, 0xa0), (0xad, 0xad), (0x300, 0x36f), (0x600, 0x605), (0x61c, 0x61c),
   (0x6dd, 0x6dd), (0x70f, 0x70f), (0x1680, 0x1680), (0x180e, 0x180e), (0x2000, 0x200f),
   (0x2028, 0x202f), (0x205f, 0x206f), (0x20d0, 0x20f0), (0x3000, 0x3000), (0xd800, 0xf8ff),
   (0xfe00, 0xfe0f), (0xfe20, 0xfe2f), (0xfeff, 0xfeff), (0xfff0, 0xfffb), (0xfffe, 0xffff),
   (0xe0000, 0x10ffff)]

/-- Whether a character is written by its code point. -/
def isUnprinted (c : Char) : Bool :=
  unprintedRanges.any fun r => r.1 ≤ c.toNat && c.toNat ≤ r.2

/-- A character between quotes. -/
def escape (c : Char) : List Char :=
  if c = '\t' then ['\\', 't']
  else if c = '\r' then ['\\', 'r']
  else if c = '\n' then ['\\', 'n']
  else if c = '\x00' then ['\\', '0']
  else if c = '"' ∨ c = '\'' ∨ c = '\\' then ['\\', c]
  else if isUnprinted c then
    ['\\', 'u', '\x7b'] ++ Radix.sixteen.write c.toNat ++ ['\x7d']
  else [c]

/-- A text in double quotes. -/
def quoted (s : String) : String :=
  String.ofList ('"' :: (s.toList.flatMap escape ++ ['"']))

end BurstDma.Text
