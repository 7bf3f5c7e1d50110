import BurstDma.Cli.Filter

/-!
# What reaches the user

Everything told during a run is text for one of two streams, or nothing: results go to
the output, remarks to the errors, and of the notices only those that the filter shows.
-/

namespace BurstDma.Cli

/-- What is shown now. -/
structure Screen where
  filter : Filter
  /-- Whether nothing below a warning is shown any more. -/
  hushed : Bool := false
deriving Repr, DecidableEq, Inhabited

/-- A piece of text for one of the streams. -/
inductive Shown where
  | output (text : String)
  | errors (text : String)
deriving Repr, DecidableEq, Inhabited

namespace Screen

/-- The name of a level in brackets, all equally wide. -/
def mark (l : Level) : String :=
  "[" ++ l.name ++ String.ofList (List.replicate (5 - l.name.length) ' ') ++ "] "

/-- Further lines of a notice stand further to the right. -/
def indented (s : String) : String :=
  String.ofList (s.toList.flatMap fun c => if c = '\n' then "\n    ".toList else [c])

/-- The line of a notice. -/
def line (n : Notice) : String :=
  mark n.level ++ indented n.text ++ "\n"

/-- Whether a notice is shown. -/
def shows (s : Screen) (n : Notice) : Bool :=
  s.filter.shows n && (!s.hushed || n.level.shownAt .warn)

/-- What is shown of a thing told, and the screen after it. -/
def show_ (s : Screen) : Entry → Screen × Option Shown
  | .notice n => (s, if s.shows n then some (.errors (line n)) else none)
  | .traced _ => (s, none)
  | .printed text => (s, some (.output text))
  | .complained text => (s, some (.errors text))
  | .hushed => ({ s with hushed := true }, none)

/-- What is shown of all things told. -/
def showAll : Screen → List Entry → List Shown
  | _, [] => []
  | s, e :: rest =>
    let (s, shown) := s.show_ e
    shown.toList ++ s.showAll rest

end Screen

/-- The text on the output. -/
def outputText (shown : List Shown) : String :=
  String.join (shown.filterMap fun s => match s with
    | .output text => some text
    | .errors _ => none)

/-- The text on the errors. -/
def errorText (shown : List Shown) : String :=
  String.join (shown.filterMap fun s => match s with
    | .errors text => some text
    | .output _ => none)

end BurstDma.Cli
