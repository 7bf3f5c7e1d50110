/-!
# Paths

A path is a text with names between slashes. An empty name and a single dot stay where
they are, two dots go up. `joined` and `parent?` work on the text alone and keep
whatever it holds besides.
-/

namespace BurstDma.Disk

/-- The names of a path, empty ones included. -/
def names : List Char → List (List Char)
  | [] => [[]]
  | c :: rest =>
    if c = '/' then [] :: names rest
    else
      match names rest with
      | [] => [[c]]
      | name :: more => (c :: name) :: more

/-- Whether a path starts at the root. -/
def isAbsolute (path : String) : Bool :=
  path.toList.head? == some '/'

/-- The path as seen from the directory `base`. An absolute path stays as it is. -/
def joined (base path : String) : String :=
  if isAbsolute path then path
  else
    match base.toList.getLast? with
    | none => path
    | some '/' => base ++ path
    | some _ => base ++ "/" ++ path

/-- Cuts off what stands for nothing at the end of a path, which is given backwards. -/
def trimBack : List Char → List Char
  | '/' :: rest => trimBack rest
  | '.' :: '/' :: rest => trimBack rest
  | ['.'] => []
  | s => s

/-- The root or the dot that a path starts with, and the rest of it. -/
def splitStart : List Char → List Char × List Char
  | '/' :: rest => (['/'], rest)
  | '.' :: '/' :: rest => (['.'], '/' :: rest)
  | ['.'] => (['.'], [])
  | s => ([], s)

/-- The path of the directory that a path lies in, if it has one. -/
def parent? (path : String) : Option String :=
  let (start, body) := splitStart path.toList
  match trimBack body.reverse with
  | [] => if start = ['.'] then some "" else none
  | back => some (String.ofList (start ++ (trimBack (back.dropWhile (· != '/'))).reverse))

end BurstDma.Disk
