import BurstDma.Text.Blank

/-!
# Texts that are read line by line

Images, stream files and scripts have one shape: a line holds at most one item,
`#` starts a comment, and a line with nothing left is skipped. `readLines` is
that shape, once. A format is then a function from one line to an optional
item, and the position of the first bad line comes from here.
-/

namespace BurstDma.Text

/-- A finished line, given newest character first: one carriage return before
the line feed belongs to the line's end. -/
def closeLine : List Char → List Char
  | '\r' :: more => more.reverse
  | run => run.reverse

/-- The lines of a text; `run` holds the line being read, newest character
first. A last line needs no line feed, and then keeps its carriage return. -/
def linesFrom (run : List Char) : List Char → List (List Char)
  | [] => if run.isEmpty then [] else [run.reverse]
  | c :: rest =>
    if c = '\n' then closeLine run :: linesFrom [] rest else linesFrom (c :: run) rest

/-- The lines of a text, without their ends. -/
def lines (s : List Char) : List (List Char) :=
  linesFrom [] s

/-- What stands before the first `#`. -/
def withoutComment (line : List Char) : List Char :=
  line.takeWhile (· != '#')

/-- Something found on a numbered line; the first line has number 1. -/
structure Located (α : Type) where
  line : Nat
  item : α
deriving Repr, DecidableEq

/-- Reads the lines from number `n` on with `read`, newest item first in
`items`, and stops at the first line that `read` refuses. -/
def readFrom {ε α : Type} (read : List Char → Except ε (Option α)) :
    Nat → List (Located α) → List (List Char) → Except (Located ε) (List (Located α))
  | _, items, [] => .ok items.reverse
  | n, items, line :: rest =>
    match read (withoutComment line) with
    | .error e => .error ⟨n, e⟩
    | .ok none => readFrom read (n + 1) items rest
    | .ok (some a) => readFrom read (n + 1) (⟨n, a⟩ :: items) rest

/-- The items of a text with their line numbers, or the first line refused. -/
def readLines {ε α : Type} (read : List Char → Except ε (Option α)) (text : List Char) :
    Except (Located ε) (List (Located α)) :=
  readFrom read 1 [] (lines text)

end BurstDma.Text
