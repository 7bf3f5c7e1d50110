/-!
# Scanners

A scanner takes something from the front of a text, or fails. A choice `a <|> b` tries
`b` on the same text if `a` fails, and a repetition ends before the first item that
fails. Repetitions also end after an item that took nothing, so all scanners end.
-/

namespace BurstDma.Toml

/-- Takes a value from the front of a text. -/
abbrev Scanner := StateT (List Char) Option

namespace Scanner

variable {α : Type}

/-- A character of a class. -/
def satisfy (p : Char → Bool) : Scanner Char
  | c :: rest => if p c then some (c, rest) else none
  | [] => none

/-- This very character. -/
def expect (c : Char) : Scanner Unit := do
  let _ ← satisfy (· == c)

/-- These very characters. -/
def expectAll (cs : List Char) : Scanner Unit :=
  cs.forM expect

/-- The longest run of characters of a class, which may be empty. -/
def run (p : Char → Bool) : Scanner (List Char) :=
  fun s => some (s.takeWhile p, s.dropWhile p)

/-- The longest run of characters of a class, with at least one of them. -/
def run1 (p : Char → Bool) : Scanner (List Char) := do
  let c ← satisfy p
  return c :: (← run p)

/-- The item, if it is there. -/
def optional (item : Scanner α) : Scanner (Option α) :=
  (some <$> item) <|> pure none

/-- Succeeds if the text does not go on with a character of the class. -/
def notBefore (p : Char → Bool) : Scanner Unit
  | c :: rest => if p c then none else some ((), c :: rest)
  | [] => some ((), [])

/-- Succeeds at the end of the text only. -/
def atEnd : Scanner Unit :=
  notBefore fun _ => true

/-- Items as long as there are any. -/
def many (item : Scanner α) (s : List Char) : Option (List α × List Char) :=
  match item s with
  | none => some ([], s)
  | some (a, rest) =>
    if _h : rest.length < s.length then
      (many item rest).map fun (more, rest) => (a :: more, rest)
    else some ([a], rest)
termination_by s.length
decreasing_by assumption

/-- At least one item, and further ones behind separators. A separator without an item
behind it is left alone. -/
def sepBy1 (item : Scanner α) (separator : Char) : Scanner (List α) := do
  let a ← item
  return a :: (← many (do expect separator; item))

/-- The value that a scanner takes from a whole text. -/
def whole (scanner : Scanner α) (s : List Char) : Option α :=
  ((do let a ← scanner; atEnd; return a) : Scanner α).run' s

end Scanner

end BurstDma.Toml
