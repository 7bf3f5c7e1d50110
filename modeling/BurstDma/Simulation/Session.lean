import BurstDma.Config.Basic
import BurstDma.Simulation.Basic
import BurstDma.Stream.Text
import BurstDma.Workplace.Basic

/-!
# Sessions

A session is a simulation with its files: those that a configuration names are read
before the first cycle, and what the run leaves behind is written after the last one.
The trace is written even if the machine stops at a fault; then it holds the cycles up
to that one.
-/

namespace BurstDma

/-- A simulation, how to run it, and where to write what it leaves behind. -/
structure Session where
  simulation : Simulation
  stepMode : Bool := false
  traceFile : Option String := none
  dumpFile : Option String := none
deriving Repr, DecidableEq

/-- A file name, unless it is empty. -/
def fileName? (name : String) : Option String :=
  if name.isEmpty then none else some name

/-- What a file that may not be named is used for. -/
def withFile {m : Type → Type} [Monad m] {α : Type} (name : String) (use : String → m α) :
    m (Option α) :=
  match fileName? name with
  | none => pure none
  | some path => return some (← use path)

namespace Session

variable {m : Type → Type} [Monad m] [Workplace m]

/-- The words of an image file. -/
def loadImage (path : String) : Task m (List Word) := do
  Task.attempt (Image.read (← Task.load path) path)

/-- The beats of a stream file. -/
def loadStream (path : String) : Task m (List Beat) := do
  Task.attempt (StreamText.read (← Task.load path) path)

/-- The script in a file. -/
def loadScript (path : String) : Task m Script := do
  Task.attempt (Script.read (← Task.load path) path)

/-- A store that starts with the words of an image file. -/
def fillStore (s : Store) (path : String) : Task m Store := do
  let words ← loadImage path
  Task.note (.imageLoaded words.length path)
  match s.load 0 words with
  | .ok s => return s
  | .error stop => throw stop

/-- The machine with the beats of a stream file at a port's source. -/
def feedPort (s : Machine) (port : Nat) (path : String) : Task m Machine := do
  let beats ← loadStream path
  Task.note (.inputLoaded port beats.length path)
  Task.perform (s.pushStream port beats)

/-- Reads the files of the ports from number `i` on: streams into the machine, references
and scripts behind those of the ports before. -/
def readPorts : Nat → List PortOptions → Simulation → Task m Simulation
  | _, [], sim => return sim
  | i, p :: rest, sim => do
    let machine := (← withFile p.inputFile (feedPort sim.machine i)).getD sim.machine
    let streamRef ← withFile p.refFile loadStream
    let scripts ← p.scripts.mapM loadScript
    readPorts (i + 1) rest { sim with
      machine
      streamRefs := sim.streamRefs ++ [streamRef]
      players := sim.players ++ scripts.map Player.ofScript }

/-- Builds the machine of a configuration and reads all files. -/
def ofConfig (c : Config) : Task m Session := do
  let machine ← match c.params with
    | .error p => Task.refuse p
    | .ok params =>
      match Machine.ofParams params with
      | .ok machine => pure machine
      | .error stop => throw stop
  let store ← withFile c.memory.initFile (fillStore machine.memory.store)
  let machine := match store with
    | none => machine
    | some store => { machine with memory := { machine.memory with store } }
  let memoryRef ← withFile c.memory.refFile loadImage
  let simulation ← readPorts 0 c.ports { machine, memoryRef, maxCycles := c.run.maxCycles }
  let traceFile ← withFile c.run.traceFile fun path => do
    Task.store path ""
    Task.note (.traceOpened path)
    return path
  return {
    simulation := { simulation with
      traced := traceFile.isSome
      machine := { simulation.machine with capture := traceFile.isSome } }
    stepMode := c.run.stepMode
    traceFile
    dumpFile := fileName? c.memory.dumpFile }

/-- The records in a transcript. -/
def records (entries : List Entry) : List TraceRecord :=
  entries.filterMap fun e => match e with
    | .traced r => some r
    | _ => none

/-- What a transcript holds besides records. -/
def remarks (entries : List Entry) : List Entry :=
  entries.filter fun e => match e with
    | .traced _ => false
    | _ => true

/-- The text of a trace file. -/
def traceText (rs : List TraceRecord) : String :=
  String.join (rs.map fun r => r.text ++ "\n")

/-- The cycles of the session, as a run of the simulation. -/
def cycles (s : Session) (typed : List String) : Run Simulation :=
  if s.stepMode then s.simulation.runSteps typed else s.simulation.runOn

/-- Runs the session to its end and writes what it leaves behind. -/
def run (s : Session) : Task m (Report × Simulation) := do
  let typed ← if s.stepMode then (Workplace.typedLines : m (List String)) else pure []
  let cycles := s.cycles typed
  Task.tell (remarks cycles.transcript)
  let seen := records cycles.transcript
  if let some path := s.traceFile then Task.store path (traceText seen)
  let simulation ← Task.perform ⟨[], cycles.result⟩
  if s.traceFile.isSome then Task.note (.traceClosed seen.length)
  if let some path := s.dumpFile then
    Task.store path (Image.write simulation.machine.memory.store.words.toList)
    Task.note (.memoryDumped path)
  return (← Task.perform simulation.report, simulation)

end Session

end BurstDma
