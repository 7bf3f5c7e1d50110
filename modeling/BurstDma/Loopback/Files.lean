import BurstDma.Config.Encode
import BurstDma.Disk.Path
import BurstDma.Loopback.Vectors
import BurstDma.Memory.Image
import BurstDma.Stream.Text
import BurstDma.Workplace.Basic

/-!
# A self-check in files

The vectors of a self-check as files in a directory, with a configuration that ties them
together. Running that configuration is running the self-check.
-/

namespace BurstDma

/-- A file to be written: its name and its text. -/
abbrev NamedText := String × String

namespace Loopback

/-- The options of a port of a self-check. -/
def portOptions (l : Loopback) (port : Nat) : PortOptions where
  frameMode := l.frameMode
  inputFile := s!"port{port}_in.dat"
  refFile := s!"port{port}_ref.dat"
  scripts := [s!"port{port}_wr.txt", s!"port{port}_rd.txt"]

/-- The configuration of a self-check with a memory of the given size. -/
def config (l : Loopback) (memoryWords : Nat) : Config where
  bus := { wordBytes := l.wordBytes }
  memory := { sizeWords := memoryWords, refFile := "memref.dat" }
  ports := (List.range l.ports).map l.portOptions

/-- The files of a port: what its source sends, what its sink has to see, and its
scripts. -/
def portFiles (v : LoopbackVectors) (port : Nat) : List NamedText :=
  let stream := StreamText.write (v.inputs[port]?.getD [])
  [(s!"port{port}_in.dat", stream),
   (s!"port{port}_ref.dat", stream),
   (s!"port{port}_wr.txt", v.writerScripts[port]?.getD ""),
   (s!"port{port}_rd.txt", v.readerScripts[port]?.getD "")]

/-- The name of the configuration file. -/
def configName : String := "loopback.toml"

/-- All files of a self-check, the configuration last. -/
def files (l : Loopback) (v : LoopbackVectors) : List NamedText :=
  (List.range l.ports).flatMap (portFiles v)
    ++ [("memref.dat", Image.write v.memoryRef), (configName, (l.config v.memoryWords).text)]

/-- Writes all files of a self-check into a directory, which is made if it is missing.
The answer is the path of the configuration. -/
def writeFiles {m : Type → Type} [Monad m] [Workplace m] (l : Loopback) (dir : String) :
    Task m String := do
  Task.access dir (Workplace.makeDirs dir)
  let v ← match l.generate with
    | .ok v => pure v
    | .error stop => throw stop
  for (name, text) in l.files v do
    Task.store (Disk.joined dir name) text
  Task.note (.vectorsWritten l.ports l.frames l.words dir)
  return Disk.joined dir configName

end Loopback

end BurstDma
