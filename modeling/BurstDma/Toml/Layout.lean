import BurstDma.Toml.Scanner

/-!
# Blanks, comments and line ends

What may stand between the parts of a document. A carriage return counts only in front
of a line feed, and a comment holds no control characters but tabs.
-/

namespace BurstDma.Toml

/-- Blanks and tabs. -/
def isBlank (c : Char) : Bool :=
  c == ' ' || c == '\t'

/-- Characters that stand for themselves: no control characters but tabs. -/
def isPlain (c : Char) : Bool :=
  c == '\t' || (decide (0x20 ≤ c.toNat) && c.toNat != 0x7f)

def blanks : Scanner Unit := do
  let _ ← Scanner.run isBlank

def newline : Scanner Unit
  | '\n' :: rest => some ((), rest)
  | '\r' :: '\n' :: rest => some ((), rest)
  | _ => none

def comment : Scanner Unit := do
  Scanner.expect '#'
  let _ ← Scanner.run isPlain

/-- What may stand behind a statement: blanks, a comment and the end of the line. -/
def lineEnd : Scanner Unit := do
  blanks
  let _ ← Scanner.optional comment
  newline <|> Scanner.atEnd

/-- What may stand between the items of an array: blanks, comments and ends of lines. -/
def spacing : Scanner Unit := do
  blanks
  let _ ← Scanner.many do
    (do comment; newline) <|> newline
    blanks

end BurstDma.Toml
