/-!
# Blank characters

Every text this library reads is cut at *blanks*: the characters Unicode gives
the property White_Space. The table is short enough to be written out. All
readers share it, so a character is blank for one of them exactly when it is
blank for every other.
-/

namespace BurstDma.Text

/-- The code points with the Unicode property White_Space, as closed ranges. -/
def blankRanges : List (Nat × Nat) :=
  [(0x09, 0x0d), (0x20, 0x20), (0x85, 0x85), (0xa0, 0xa0), (0x1680, 0x1680),
   (0x2000, 0x200a), (0x2028, 0x2029), (0x202f, 0x202f), (0x205f, 0x205f),
   (0x3000, 0x3000)]

/-- Whether a character separates tokens. -/
def isBlank (c : Char) : Bool :=
  blankRanges.any fun r => r.1 ≤ c.toNat && c.toNat ≤ r.2

/-- The text without the blanks at either end. -/
def trim (s : List Char) : List Char :=
  ((s.dropWhile isBlank).reverse.dropWhile isBlank).reverse

/-- The maximal runs of non-blank characters, in order. `run` holds the run
being read, newest character first. -/
def tokensFrom (run : List Char) : List Char → List (List Char)
  | [] => if run.isEmpty then [] else [run.reverse]
  | c :: rest =>
    if isBlank c then
      if run.isEmpty then tokensFrom [] rest else run.reverse :: tokensFrom [] rest
    else tokensFrom (c :: run) rest

/-- The tokens of a line. -/
def tokens (s : List Char) : List (List Char) :=
  tokensFrom [] s

end BurstDma.Text
