import BurstDma.Config.Layers
import BurstDma.Disk.Path
import BurstDma.Workplace.Basic

/-!
# Loading configurations

A configuration is loaded from a file alone or from all layers. Either way file names in
it are as they were written; `resolve` makes them relative to the directory of the
configuration. `loadMerged` is all of it in the order in which a program wants it.
-/

namespace BurstDma.Config

/-- A file name as seen from a directory. No name stays no name. -/
def resolveName (base name : String) : String :=
  if name.isEmpty then name else Disk.joined base name

/-- All file names as seen from a directory. -/
def resolve (base : String) (c : Config) : Config :=
  { c with
    run := { c.run with traceFile := resolveName base c.run.traceFile }
    memory := { c.memory with
      initFile := resolveName base c.memory.initFile
      refFile := resolveName base c.memory.refFile
      dumpFile := resolveName base c.memory.dumpFile }
    ports := c.ports.map fun p => { p with
      inputFile := resolveName base p.inputFile
      refFile := resolveName base p.refFile
      scripts := p.scripts.map (resolveName base) } }

/-- The directory that a configuration's file names start from. -/
def baseOf (path : Option String) : String :=
  match path.bind Disk.parent? with
  | none => "."
  | some dir => if dir.isEmpty then "." else dir

section

variable {m : Type → Type} [Monad m] [Workplace m]

/-- The configuration in a file. -/
def loadFile (path : String) : Task m Config := do
  Task.attempt (ofText (← Task.load path))

/-- The built-in configuration. -/
def loadDefault : Task m Config :=
  Task.attempt (ofText defaultText)

/-- The path under which a configuration is really found: a path that leads to something
other than a file may be meant without its ending. -/
def findFile (path : String) : Task m String := do
  if ← (Workplace.isFile path : m Bool) then return path
  let bare := String.ofList (Disk.trimBack path.toList.reverse).reverse
  let full := bare ++ ".toml"
  let name := bare.toList.reverse.takeWhile (· != '/')
  let isNamed := !name.isEmpty && name != ['.', '.']
  if isNamed && (← (Workplace.isFile full : m Bool)) then return full
  Task.refuse (.badLayers s!"configuration file \"{path}\" not found")

/-- The layer in a file. -/
def loadLayer (path : String) : Task m Toml.Entries := do
  unless ← (Workplace.isThere path : m Bool) do Task.refuse (.file path .notFound)
  let text ← Task.load (← findFile path)
  Task.attempt (layerOfText (String.ofList (Toml.withoutMark text.toList)))

/-- The configuration from the built-in settings, a file and the environment. -/
def loadLayered (path : Option String) : Task m Config := do
  let builtIn ← Task.attempt (layerOfText defaultText)
  let custom ← match path with
    | none => pure []
    | some path => loadLayer path
  let environ ← (Workplace.environment : m (List (String × String)))
  match ofLayers [builtIn, custom, Layer.ofEnvironment environ] with
  | .ok c => return c
  | .error stop => throw stop

/-- Refuses a configuration that cannot be used, and warns of what may not work. -/
def validate (c : Config) : Task m Unit := do
  let (notices, refusal) := c.check
  Task.tell (notices.map .notice)
  match refusal with
  | some why => Task.refuse (.refused why)
  | none => pure ()

/-- The configuration from all layers, with what was asked for on the spot, checked and
ready for use. -/
def loadMerged (path : Option String) (o : Overrides) : Task m Config := do
  let c := ((← loadLayered path).override o).resolve (baseOf path)
  c.validate
  return c

end

end BurstDma.Config
