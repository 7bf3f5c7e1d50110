import BurstDma.Journal.Run
import BurstDma.Problem

/-!
# Where work is done

A simulation run reads files, writes files and tells what it does. What it needs of its
surroundings is a `Workplace`; the work itself is written once, for every place.

A *task* is work that may end early. **What was done before its end stays done**: files
stay written, and what was told stays told.
-/

namespace BurstDma

/-- Files, an environment, a user who types, and someone who listens. -/
class Workplace (m : Type → Type) where
  /-- The text of a file. -/
  load : String → m (Except FileError String)
  /-- Writes a file, which may be new. -/
  store : String → String → m (Except FileError Unit)
  /-- Makes a directory and those on the way to it. -/
  makeDirs : String → m (Except FileError Unit)
  /-- Whether there is anything under a path. -/
  isThere : String → m Bool
  isFile : String → m Bool
  /-- The variables of the environment. -/
  environment : m (List (String × String))
  /-- The lines that the user types. -/
  typedLines : m (List String)
  tell : List Entry → m Unit

/-- Work that may end early. -/
abbrev Task (m : Type → Type) := ExceptT Stop m

namespace Task

variable {m : Type → Type} [Monad m] [Workplace m] {α : Type}

/-- Ends early with a problem. -/
def refuse (p : Problem) : Task m α :=
  throw (.problem p)

/-- Something that may be refused. -/
def attempt : Attempt α → Task m α
  | .ok a => pure a
  | .error p => refuse p

/-- An access to a file. -/
def access (path : String) (work : m (Except FileError α)) : Task m α := do
  match ← (work : m (Except FileError α)) with
  | .ok a => pure a
  | .error cause => refuse (.file path cause)

/-- The text of a file. -/
def load (path : String) : Task m String :=
  access path (Workplace.load path)

/-- Writes a file. -/
def store (path text : String) : Task m Unit :=
  access path (Workplace.store path text)

/-- Tells some things. -/
def tell (entries : List Entry) : Task m Unit :=
  (Workplace.tell entries : m Unit)

/-- Tells a notice. -/
def note (n : Notice) : Task m Unit :=
  tell [.notice n]

/-- Tells what a run said, and goes on with its result. -/
def perform (r : Run α) : Task m α := do
  tell r.transcript
  match r.result with
  | .ok a => pure a
  | .error fault => throw (.fault fault)

end Task

end BurstDma
