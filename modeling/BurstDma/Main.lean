import BurstDma.Cli.Program

/-!
# The program in the world

The workplace of the real program: its files are those of the machine it runs on, and
what is told appears on the standard streams at once.
-/

namespace BurstDma.Outside

/-- Work in the world, with a screen. -/
abbrev World := StateT Cli.Screen IO

/-- What an error of the file system means for a file. -/
def fileError : IO.Error → FileError
  | .noFileOrDirectory .. => .missing
  | .noSuchThing .. => .missing
  | .alreadyExists .. => .exists
  | .inappropriateType _ code text =>
    if code = 20 then .notDirectory else if code = 21 then .isDirectory else .other text
  | e => .other (toString e)

/-- An access to the file system. -/
def access {α : Type} (work : IO α) : World (Except FileError α) := do
  match ← (work.toBaseIO : BaseIO (Except IO.Error α)) with
  | .ok a => return .ok a
  | .error e => return .error (fileError e)

/-- The lines that the user types, up to the end of the input. -/
partial def readLines (input : IO.FS.Stream) (lines : Array String) : IO (Array String) := do
  let line ← input.getLine
  if line.isEmpty then return lines
  else readLines input (lines.push line)

/-- A variable from its text, a name and a value around an equals sign. -/
def variableOf (text : String) : Option (String × String) :=
  match text.toList.span (· != '=') with
  | (_, []) => none
  | (name, _ :: value) => some (String.ofList name, String.ofList value)

/-- The variables of the environment, as the system lists them. -/
def environ : IO (List (String × String)) := do
  match ← (IO.FS.readFile "/proc/self/environ").toBaseIO with
  | .ok text => return (text.splitOn "\x00").filterMap variableOf
  | .error _ => return []

/-- Shows one thing. -/
def tellOne (e : Entry) : World Unit := do
  let (screen, shown) := (← get).show_ e
  set screen
  match shown with
  | none => pure ()
  | some (.output text) => IO.print text
  | some (.errors text) => IO.eprint text

instance : Workplace World where
  load path := access (IO.FS.readFile path)
  store path text := access (IO.FS.writeFile path text)
  makeDirs path := access (IO.FS.createDirAll path)
  isThere path := do
    match ← access (IO.FS.realPath path) with
    | .ok found => found.pathExists
    | .error _ => return false
  isFile path := do
    match ← access (IO.FS.realPath path) with
    | .ok found => return (← found.pathExists) && !(← found.isDir)
    | .error _ => return false
  environment := environ
  typedLines := do return (← readLines (← IO.getStdin) #[]).toList
  tell entries := entries.forM tellOne

end BurstDma.Outside

def main (words : List String) : IO UInt32 := do
  let screen := BurstDma.Cli.screenOf words (← BurstDma.Outside.environ)
  let work : BurstDma.Outside.World Nat := BurstDma.Cli.execute words
  let (code, _) ← work.run screen
  return code.toUInt32
