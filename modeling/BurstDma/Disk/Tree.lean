import BurstDma.Disk.Path
import BurstDma.Problem

/-!
# File trees

A small file system as a value: directories and text files below one directory, in which
all paths start. Every operation names the error that its path leads to: a name on the
way may be missing, or it may be no directory.
-/

namespace BurstDma.Disk

/-- The names that lead to a place. -/
abbrev Place := List (List Char)

/-- What can be at a place. -/
inductive Node where
  | file (text : String)
  | directory
deriving Repr, DecidableEq, Inhabited

/-- The places below the top directory where something is. -/
structure Tree where
  nodes : List (Place × Node) := []
deriving Repr, DecidableEq, Inhabited

namespace Tree

/-- What is at a place. -/
def get? (t : Tree) : Place → Option Node
  | [] => some .directory
  | place => t.nodes.lookup place

/-- The tree with something at a place. -/
def put (t : Tree) (place : Place) (n : Node) : Tree :=
  { nodes := (place, n) :: t.nodes.filter (·.1 != place) }

/-- Whether a name stays in its directory. -/
def stays (name : List Char) : Bool :=
  name.isEmpty || name == ['.']

/-- Follows names from a place on. All places on the way have to be directories; the
last one need not exist. Nothing above the top directory exists. -/
def follow (t : Tree) : Place → List (List Char) → Except FileError Place
  | place, [] => .ok place
  | place, name :: rest =>
    match t.get? place with
    | none => .error .missing
    | some (.file _) => .error .notDirectory
    | some .directory =>
      if stays name then t.follow place rest
      else if name = ['.', '.'] then
        if place.isEmpty then .error .missing else t.follow place.dropLast rest
      else t.follow (place ++ [name]) rest

/-- The place of a path, under which something may be or not. -/
def resolve (t : Tree) (path : String) : Except FileError Place :=
  if path.isEmpty || isAbsolute path then .error .missing
  else t.follow [] (names path.toList)

/-- What a path leads to. -/
def find? (t : Tree) (path : String) : Option Node :=
  match t.resolve path with
  | .ok place => t.get? place
  | .error _ => none

/-- Whether a path leads to a file. -/
def isFile (t : Tree) (path : String) : Bool :=
  match t.find? path with
  | some (.file _) => true
  | _ => false

/-- The text of a file. -/
def load (t : Tree) (path : String) : Except FileError String := do
  match t.get? (← t.resolve path) with
  | none => .error .missing
  | some .directory => .error .isDirectory
  | some (.file text) => .ok text

/-- The path without slashes at its end. -/
def withoutSlashes (path : String) : String :=
  String.ofList (path.toList.reverse.dropWhile (· == '/')).reverse

/-- Writes a file, which may be new. -/
def store (t : Tree) (path text : String) : Except FileError Tree := do
  let bare := withoutSlashes path
  let place ← t.resolve bare
  if bare != path || t.get? place = some .directory then .error .isDirectory
  else return t.put place (.file text)

/-- Makes one directory. -/
def makeDir (t : Tree) (path : String) : Except FileError Tree := do
  let place ← t.resolve (withoutSlashes path)
  if (t.get? place).isSome then .error .exists else return t.put place .directory

/-- Makes a directory and those on the way to it, of which there are at most `n`. -/
def makeDirsUpTo : Nat → String → StateM Tree (Except FileError Unit)
  | 0, _ => pure (.error .missing)
  | n + 1, path => do
    if path.isEmpty then return .ok ()
    match (← get).makeDir path with
    | .ok t => set t; return .ok ()
    | .error .missing =>
      match parent? path with
      | none => return .error (.other "failed to create whole tree")
      | some above =>
        match ← makeDirsUpTo n above with
        | .error e => return .error e
        | .ok () => finish path
    | .error e => return settle (← get) path e
where
  /-- A directory that is there needs no making. -/
  settle (t : Tree) (path : String) (e : FileError) : Except FileError Unit :=
    if t.find? path = some .directory then .ok () else .error e
  finish (path : String) : StateM Tree (Except FileError Unit) := do
    match (← get).makeDir path with
    | .ok t => set t; return .ok ()
    | .error e => return settle (← get) path e

/-- Makes a directory and those on the way to it. -/
def makeDirs (path : String) : StateM Tree (Except FileError Unit) :=
  makeDirsUpTo (path.length + 1) path

end Tree

end BurstDma.Disk
