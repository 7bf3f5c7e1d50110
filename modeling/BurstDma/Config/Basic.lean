import BurstDma.Machine.Basic

/-!
# Configurations

A configuration says which machine to build, which files to feed it and what to hold the
outcome to. Everything in it has a default, so a configuration names only what it
changes. **What cannot be built has a `refusal?`**, in words that name the setting; only
how many ports and how large buffers there may be is left to the machine.
-/

namespace BurstDma

/-- How long and how to run. -/
structure RunOptions where
  maxCycles : Nat := 1000000
  quiet : Bool := false
  stepMode : Bool := false
  /-- Where the handshakes are written; no trace if empty. -/
  traceFile : String := ""
deriving Repr, DecidableEq, Inhabited

/-- The shared bus. -/
structure BusOptions where
  wordBytes : Nat := 8
  readOutstanding : Nat := 4
  inputRegister : Bool := false
  outputRegister : Bool := false
deriving Repr, DecidableEq, Inhabited

/-- The memory. Empty file names stand for no file. -/
structure MemoryOptions where
  sizeWords : Nat := 16384
  readLatency : Nat := 4
  writeLatency : Nat := 2
  /-- The image that the memory starts with. -/
  initFile : String := ""
  /-- The image that the memory is held to in the end. -/
  refFile : String := ""
  /-- Where the memory is written in the end. -/
  dumpFile : String := ""
  errorRegions : List ErrorRegion := []
deriving Repr, DecidableEq, Inhabited

/-- A port. Empty file names stand for no file. -/
structure PortOptions where
  fifoDepth : Nat := 32
  frameMode : Bool := false
  sourceThrottle : Nat := 0
  sinkThrottle : Nat := 0
  /-- The stream that the source sends. -/
  inputFile : String := ""
  /-- The stream that the sink is held to. -/
  refFile : String := ""
  /-- The scripts played against the machine. -/
  scripts : List String := []
deriving Repr, DecidableEq, Inhabited

/-- A configuration. -/
structure Config where
  run : RunOptions := {}
  bus : BusOptions := {}
  memory : MemoryOptions := {}
  ports : List PortOptions := [{}]
deriving Repr, DecidableEq, Inhabited

/-- What is asked for on the spot; it wins over every configuration. -/
structure Overrides where
  quiet : Bool := false
  stepMode : Bool := false
  traceFile : Option String := none
  maxCycles : Option Nat := none
deriving Repr, DecidableEq, Inhabited

/-- The port of a machine that the options describe. -/
def PortOptions.params (p : PortOptions) : PortParams where
  fifoDepth := p.fifoDepth
  frameMode := p.frameMode
  sourceThrottle := p.sourceThrottle
  sinkThrottle := p.sinkThrottle

namespace Config

/-- The machine that a configuration describes, if its bus can be one. -/
def params (c : Config) : Attempt MachineParams :=
  match Geometry.ofWordBytes? c.bus.wordBytes with
  | none => .error (.refused (.geometryWordBytes c.bus.wordBytes))
  | some geometry => .ok {
      geometry
      ports := c.ports.map (·.params)
      memory := {
        sizeWords := c.memory.sizeWords
        readLatency := c.memory.readLatency
        writeLatency := c.memory.writeLatency
        readOutstanding := c.bus.readOutstanding
        errorRegions := c.memory.errorRegions }
      inputRegister := c.bus.inputRegister
      outputRegister := c.bus.outputRegister }

/-- The configuration with what was asked for on the spot. -/
def override (c : Config) (o : Overrides) : Config :=
  { c with run := {
      maxCycles := o.maxCycles.getD c.run.maxCycles
      quiet := c.run.quiet || o.quiet
      stepMode := c.run.stepMode || o.stepMode
      traceFile := o.traceFile.getD c.run.traceFile } }

/-! ## Checks -/

/-- Why a region cannot fail, if it cannot. -/
def regionRefusal? (r : ErrorRegion) : Option Refusal :=
  if r.limit ≤ r.first then some (.configEmptyRegion r.first r.limit) else none

/-- Why the settings outside the ports cannot be used, if they cannot. -/
def sharedRefusal? (c : Config) : Option Refusal :=
  if (Geometry.ofWordBytes? c.bus.wordBytes).isNone then some (.configWordBytes c.bus.wordBytes)
  else if c.bus.readOutstanding = 0 then some .configReadOutstanding
  else if c.memory.sizeWords = 0 then some .configSizeWords
  else if c.ports.isEmpty then some .configNoPorts
  else c.memory.errorRegions.findSome? regionRefusal?

/-- Goes through the buffer depths of the ports from number `i` on: what is worth a
warning up to the first buffer that cannot be, and why that cannot be. -/
def checkDepths : Nat → List Nat → List Notice × Option Refusal
  | _, [] => ([], none)
  | i, depth :: rest =>
    if depth = 0 then ([], some (.configFifoDepth i))
    else
      let (notices, refusal) := checkDepths (i + 1) rest
      (if depth < maxBurstWords then .shallowFifo i depth :: notices else notices, refusal)

/-- What is worth a warning, and why the configuration cannot be used, if it cannot. -/
def check (c : Config) : List Notice × Option Refusal :=
  match c.sharedRefusal? with
  | some why => ([], some why)
  | none => checkDepths 0 (c.ports.map (·.fifoDepth))

/-- Why the configuration cannot be used, if it cannot. -/
def refusal? (c : Config) : Option Refusal :=
  c.check.2

end Config

end BurstDma
